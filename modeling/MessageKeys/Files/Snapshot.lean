import MessageKeys.Files.FileSystem
import MessageKeys.Json.Basic
import MessageKeys.Syntax.Cursor

/-!
# Snapshots of file systems

A snapshot describes files as JSON: a path, the content as text or as hexadecimal digits,
the time of the last change and, for a source file, the rows of its syntax tree.  A row
holds depth, kind, flag, first byte, end and, if there is one, the field; flags 1 and 2
are named nodes, 2 and 3 nodes that error recovery put in.  The row and column of a node are
counted in the content.
-/

namespace MessageKeys.Snapshot

open Syntax

/-- A member of an object, or null. -/
def member (value : Json) (name : Text) : Json :=
  (value.get? name).getD .null

/-- The text of a value, or the empty text. -/
def textOf (value : Json) : Text :=
  value.text?.getD []

/-- The integer of a value, or zero. -/
def intOf : Json → Int
  | .int n => n
  | _ => 0

/-- The natural number of a value, or zero. -/
def natOf (value : Json) : Nat :=
  (intOf value).toNat

/-- The elements of a value, or none. -/
def listOf : Json → List Json
  | .arr items => items
  | _ => []

/-- A row of the syntax tree of a content. -/
def rowOf (content : Bytes) (value : Json) : Row :=
  let parts := listOf value
  let part (i : Nat) : Json := parts.getD i .null
  let flag := natOf (part 2)
  let start := natOf (part 3)
  { depth := natOf (part 0)
    label :=
      { kind := Kind.ofText (textOf (part 1))
        named := flag == 1 || flag == 2
        missing := flag == 2 || flag == 3
        start
        stop := natOf (part 4)
        point := Point.after (content.take start)
        field := (part 5).text?.bind Field.ofText? } }

/-- The syntax tree of a content with some rows. -/
def treeOf (content : Bytes) (value : Json) : Node :=
  (Node.ofRows? ((listOf value).map (rowOf content))).getD default

/-- The bytes with some hexadecimal digits. -/
def hexBytes : Text → Bytes
  | high :: low :: rest =>
      UInt8.ofNat (16 * high.hexValue?.getD 0 + low.hexValue?.getD 0) :: hexBytes rest
  | _ => []

/-- The content of a file, unless its text cannot be written. -/
def contentOf? (file : Json) : Option Bytes :=
  match member file "hex" with
  | .str digits => some (hexBytes digits)
  | _ => Utf8.encode? (textOf (member file "text"))

/-- The time of the last change if none is given. -/
def defaultTime : Int := 1000

/-- The time of a file's last change. -/
def timeOf (file : Json) : Int :=
  match member file "mtime" with
  | .int n => n
  | _ => defaultTime

/-- The source file of an entry, unless its text cannot be written. -/
def unitOf? (file : Json) : Option SourceUnit :=
  (contentOf? file).map fun content =>
    ⟨textOf (member file "path"), content.toArray, treeOf content (member file "tree")⟩

/-- Why an entry of a snapshot cannot be put into a file system. -/
inductive Fault where
  | file (e : FileError)
  | content
  deriving DecidableEq, Repr

/-- Put the entry of a snapshot into a file system.  The directories on the way are made
first, and stay if the entry cannot be put there. -/
def put (fs : FileSystem) (entry : Json) : FileSystem × Except Fault Unit :=
  let path := Path.ofText (textOf (member entry "path"))
  match member entry "dir" with
  | .bool true =>
      let (next, made) := fs.makeDirectory path
      (next, (made.map fun _ => ()).mapError .file)
  | _ =>
      match fs.makeDirectory { path with parts := path.parts.dropLast } with
      | (next, .error e) => (next, .error (.file e))
      | (next, .ok _) =>
          match contentOf? entry, next.writable path with
          | none, _ => (next, .error .content)
          | some _, .error e => (next, .error (.file e))
          | some content, .ok place =>
              let file : File := ⟨content, timeOf entry, treeOf content (member entry "tree")⟩
              (next.set place (.file file), .ok ())

/-- The file system with nothing but a working directory. -/
def bare (workingDirectory : AbsolutePath) : FileSystem :=
  let empty : FileSystem := { workingDirectory, entries := [] }
  (empty.makeAlong [] false workingDirectory).1

/-- The file system with the entries of a snapshot below a working directory. -/
def fileSystem (workingDirectory : AbsolutePath) (entries : List Json) :
    Except Fault FileSystem :=
  entries.foldlM (fun fs entry => let (next, done) := put fs entry; done.map fun _ => next)
    (bare workingDirectory)

end MessageKeys.Snapshot
