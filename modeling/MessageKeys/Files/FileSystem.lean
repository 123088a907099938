import MessageKeys.Assoc
import MessageKeys.Files.PathBytes
import MessageKeys.Syntax.Node
import MessageKeys.Text.Quoted

/-!
# File systems

A file system is a table of files and directories by absolute path, with a working
directory.  A file carries its content, the time of its last change, and the syntax tree
of its content if it is a source file.  A path without usable bytes is refused, and so is
one that is too long.  Any other is followed component by component: what is not a
directory has nothing below it, a name that is too long cannot be looked up, and a name
that is not there ends the search.

A name may be a link.  The table of links gives the place that a name stands for in the end,
past any further link; a link that only leads round in a circle is left out.  Writing a file
can fail: another table says for which files, and how far the writing gets.  Reading a file
that is there does not fail.
-/

namespace MessageKeys

/-- A file. -/
structure File where
  content : Bytes
  modified : Int
  tree : Syntax.Node

/-- What stands at a path.  A directory may have been given a time since its last change;
otherwise its time is that of the change, which no file was ever given. -/
inductive Entry where
  | directory (given : Option Int)
  | file (f : File)

/-- The time that an entry was given, if it has not changed since. -/
def Entry.modified? : Entry → Option Int
  | .directory given => given
  | .file f => some f.modified

/-- Whether an entry is a directory. -/
def Entry.isDirectory : Entry → Bool
  | .directory _ => true
  | .file _ => false

/-- Why a path leads nowhere. -/
inductive OsError where
  | notFound
  | alreadyThere
  | notADirectory
  | isADirectory
  | nameTooLong
  deriving DecidableEq, Repr

namespace OsError

/-- The number and wording of an error. -/
def label : OsError → Text
  | notFound => "[Errno 2] No such file or directory: "
  | alreadyThere => "[Errno 17] File exists: "
  | notADirectory => "[Errno 20] Not a directory: "
  | isADirectory => "[Errno 21] Is a directory: "
  | nameTooLong => "[Errno 36] File name too long: "

/-- The message for an error at a path. -/
def message (e : OsError) (path : Text) : Text :=
  e.label ++ path.quoted

end OsError

/-- Why a path cannot be used. -/
inductive FileError where
  | path (fault : PathFault)
  | os (e : OsError)
  deriving DecidableEq, Repr

/-- How writing a file goes wrong, with the reason that is given for it. -/
inductive WriteFault where
  /-- The file cannot be opened for writing, and stays as it is. -/
  | refused (reason : Text)
  /-- The file is emptied, but no more than some bytes get there. -/
  | cut (kept : Nat) (reason : Text)
  deriving DecidableEq, Repr

/-- Files and directories with a working directory. -/
structure FileSystem where
  workingDirectory : AbsolutePath
  entries : List (AbsolutePath × Entry)
  /-- The links, each with the place that it stands for. -/
  links : List (AbsolutePath × AbsolutePath) := []
  /-- The files that cannot be written as they should. -/
  faults : List (AbsolutePath × WriteFault) := []

namespace FileSystem

/-- The longest name of a file, in bytes. -/
def nameLimit : Nat := 255

/-- The number of bytes that a path has to stay below. -/
def pathLimit : Nat := 4096

/-- What stands at an absolute path. -/
def entry? (fs : FileSystem) (path : AbsolutePath) : Option Entry :=
  if path.isEmpty then some (.directory none) else Assoc.get? path fs.entries

/-- The place that a name stands for: its own, unless it is a link. -/
def landing (fs : FileSystem) (path : AbsolutePath) : AbsolutePath :=
  (Assoc.get? path fs.links).getD path

/-- How writing the file at a place goes wrong, if it does. -/
def fault? (fs : FileSystem) (place : AbsolutePath) : Option WriteFault :=
  Assoc.get? place fs.faults

/-- Take one more component onto an absolute path; above the root is the root, and a link
leads elsewhere. -/
def descend (fs : FileSystem) (directory : AbsolutePath) (component : Text) : AbsolutePath :=
  if component = PathName.up then directory.dropLast
  else
    let path := directory ++ [component]
    (Assoc.get? (path.map PathName.stored) fs.links).getD path

/-- The absolute path that a path means, without links. -/
def resolve (fs : FileSystem) (path : Path) : AbsolutePath :=
  match path.anchor with
  | .relative => path.parts.foldl fs.descend fs.workingDirectory
  | _ => path.parts.foldl fs.descend []

/-- The absolute path that a path means.  Every component is looked at on the way, also those
that `..` takes back. -/
def resolve? (fs : FileSystem) (path : Path) : Except PathFault AbsolutePath :=
  match path.fault? with
  | some fault => .error fault
  | none => .ok (fs.resolve path)

/-- Whether a name is too long to be looked up. -/
def isTooLong (name : Text) : Bool :=
  match PathName.bytes? name with
  | some bytes => decide (nameLimit < bytes.length)
  | none => false

/-- Follow components from an entry. -/
def follow (fs : FileSystem) (here : AbsolutePath) (entry : Entry) :
    List Text → Except OsError (AbsolutePath × Entry)
  | [] => .ok (here, entry)
  | component :: rest =>
      match entry with
      | .file _ => .error .notADirectory
      | .directory given =>
          if component.isEmpty || component = PathName.here then
            follow fs here (.directory given) rest
          else if component = PathName.up then
            follow fs here.dropLast ((fs.entry? here.dropLast).getD (.directory none)) rest
          else if isTooLong component then .error .nameTooLong
          else
            let place := fs.landing (here ++ [PathName.stored component])
            match fs.entry? place with
            | some found => follow fs place found rest
            | none => .error .notFound

/-- The components of a path from the root on. -/
def fromRoot (fs : FileSystem) (path : Path) : List Text :=
  match path.anchor with
  | .relative => fs.workingDirectory ++ path.parts
  | _ => path.parts

/-- What the components of a path lead to. -/
def walk (fs : FileSystem) (path : Path) : Except OsError (AbsolutePath × Entry) :=
  fs.follow [] (.directory none) (fs.fromRoot path)

/-- Whether a path can be looked up at all. -/
def usable (path : Path) : Except FileError Unit :=
  match path.usableBytes with
  | .error fault => .error (.path fault)
  | .ok bytes => if pathLimit ≤ bytes.length then .error (.os .nameTooLong) else .ok ()

/-- Whether a path is too long to be looked up. -/
def isOverlong (path : Path) : Bool :=
  match usable path with
  | .error (.os _) => true
  | _ => false

/-- What a path leads to. -/
def locate (fs : FileSystem) (path : Path) : Except FileError (AbsolutePath × Entry) :=
  match usable path with
  | .error e => .error e
  | .ok _ => (fs.walk path).mapError .os

/-- The file that a path leads to. -/
def readFile (fs : FileSystem) (path : Path) : Except FileError File :=
  match fs.locate path with
  | .error e => .error e
  | .ok (_, .directory _) => .error (.os .isADirectory)
  | .ok (_, .file f) => .ok f

/-- Whether a path leads to an entry of a kind; a path that leads nowhere does not.  Where
the path is too long there is no answer. -/
def leadsTo (fs : FileSystem) (kind : Entry → Bool) (path : Path) : Except OsError Bool :=
  match fs.locate path with
  | .ok (_, entry) => .ok (kind entry)
  | .error (.os .nameTooLong) => .error .nameTooLong
  | .error _ => .ok false

/-- Whether a path leads to a directory. -/
def isDirectory (fs : FileSystem) (path : Path) : Except OsError Bool :=
  fs.leadsTo Entry.isDirectory path

/-- Whether a path leads to a file. -/
def isFile (fs : FileSystem) (path : Path) : Except OsError Bool :=
  fs.leadsTo (fun entry => !entry.isDirectory) path

/-- The name of an entry directly inside a directory. -/
def nameIn? (directory path : AbsolutePath) : Option Text :=
  match path.getLast? with
  | some name => if path.dropLast = directory then some name else none
  | none => none

/-- The names directly inside a directory, each with what it leads to.  A link that leads
nowhere is not among them. -/
def list (fs : FileSystem) (directory : AbsolutePath) : List (Text × Entry) :=
  fs.entries.filterMap (fun (path, entry) =>
      (nameIn? directory path).map fun name => (name, entry))
    ++ fs.links.filterMap fun (path, target) =>
      (nameIn? directory path).bind fun name => (fs.entry? target).map fun entry => (name, entry)

/-- Note that a name was added to a directory or taken out of it. -/
def change (fs : FileSystem) (directory : AbsolutePath) : FileSystem :=
  match Assoc.get? directory fs.entries with
  | some (.directory _) =>
      { fs with entries := Assoc.insert directory (.directory none) fs.entries }
  | _ => fs

/-- Put an entry at an absolute path. -/
def set (fs : FileSystem) (path : AbsolutePath) (entry : Entry) : FileSystem :=
  let changed := if (fs.entry? path).isSome then fs else fs.change path.dropLast
  { changed with entries := Assoc.insert path entry changed.entries }

/-- Make the directories that components lead through where they are not there yet, also
those that a later `..` leaves again.  What is made before something is in the way stays.
From the first that is made on, each directory is asked for by itself, and a file in its
place is already there; before, a file only has nothing below it. -/
def makeAlong (fs : FileSystem) (here : AbsolutePath) (made : Bool) :
    List Text → FileSystem × Except OsError AbsolutePath
  | [] => (fs, .ok here)
  | component :: rest =>
      if component.isEmpty || component = PathName.here then makeAlong fs here made rest
      else if component = PathName.up then makeAlong fs here.dropLast made rest
      else if isTooLong component then (fs, .error .nameTooLong)
      else
        let place := fs.landing (here ++ [PathName.stored component])
        match fs.entry? place with
        | some (.directory _) => makeAlong fs place made rest
        | some (.file _) =>
            (fs, .error (if made || rest.isEmpty then .alreadyThere else .notADirectory))
        | none => makeAlong (fs.set place (.directory none)) place true rest

/-- Make a directory and those on the way to it. -/
def makeDirectory (fs : FileSystem) (path : Path) : FileSystem × Except FileError AbsolutePath :=
  match usable path with
  | .error e => (fs, .error e)
  | .ok _ =>
      let (next, place) := fs.makeAlong [] false (fs.fromRoot path)
      (next, place.mapError .os)

/-- Where a file is written at a path.  A name that is not there yet is added to its
directory. -/
def writable (fs : FileSystem) (path : Path) : Except FileError AbsolutePath :=
  match fs.locate path with
  | .ok (_, .directory _) => .error (.os .isADirectory)
  | .ok (place, .file _) => .ok place
  | .error (.os .notFound) =>
      match fs.locate { path with parts := path.parts.dropLast } with
      | .ok (directory, .directory _) =>
          .ok (fs.landing (directory ++ [PathName.stored path.name]))
      | _ => .error (.os .notFound)
  | .error e => .error e

/-- Give the file at a place new content, which is newer than the old and comes without a
tree. -/
def overwrite (fs : FileSystem) (place : AbsolutePath) (content : Bytes) : FileSystem :=
  match fs.entry? place with
  | some (.file old) => fs.set place (.file ⟨content, old.modified + 1, default⟩)
  | _ => fs.set place (.file ⟨content, 0, default⟩)

/-- Give a file or directory a time of its last change. -/
def touch (fs : FileSystem) (path : Path) (modified : Int) : Except FileError FileSystem :=
  match fs.locate path with
  | .error e => .error e
  | .ok (place, .directory _) => .ok (fs.set place (.directory (some modified)))
  | .ok (place, .file f) => .ok (fs.set place (.file { f with modified }))

/-- Remove the file that a path leads to. -/
def unlink (fs : FileSystem) (path : Path) : Except FileError FileSystem :=
  match fs.locate path with
  | .error e => .error e
  | .ok (_, .directory _) => .error (.os .isADirectory)
  | .ok (place, .file _) =>
      let changed := fs.change place.dropLast
      .ok { changed with entries := Assoc.erase place changed.entries }

end FileSystem

end MessageKeys
