import MessageKeys.Files.FileSystem
import MessageKeys.Json.Reader
import MessageKeys.Json.Writer
import MessageKeys.Messages.Document
import MessageKeys.Report.Format

/-!
# Documents in files

A document is stored as UTF-8 text of a JSON object.  Line ends of every kind are read as
newlines; a written document is indented and ends in a newline.

Writing takes three steps: the text is made, the file is opened and thereby emptied, and the
bytes of the text go there.  What is left of the file depends on the step that fails.
-/

namespace MessageKeys

/-- Why a document cannot be used. -/
inductive DocumentFault where
  | notFound
  | invalid (reason : Text)
  deriving DecidableEq, Repr

/-- A document that cannot be used, with the path by which it was asked for. -/
structure LoadFailure where
  path : Text
  fault : DocumentFault
  deriving DecidableEq, Repr

/-- The diagnostic for a document that cannot be used. -/
def LoadFailure.diagnostic (failure : LoadFailure) : Diagnostic :=
  match failure.fault with
  | .notFound => Diagnostic.messagesNotFound failure.path
  | .invalid reason => Diagnostic.messagesInvalid failure.path reason

/-- Why loading a document stopped.  A path that cannot be used, bytes that are not UTF-8,
overlong numbers and too much nesting are not findings about the document: they end the
run. -/
inductive LoadError where
  | unusable (failure : LoadFailure)
  | path (fault : PathFault)
  | undecodable
  | tooManyDigits (count : Nat)
  | tooDeep
  deriving DecidableEq, Repr

/-- The wording for a number with too many digits. -/
def LoadError.digitsMessage [Json.Limits] (count : Nat) : Text :=
  Text.ofString "Exceeds the limit (" ++ Numeral.decimal Json.Limits.digits
    ++ Text.ofString " digits) for integer string conversion: value has " ++ Numeral.decimal count
    ++ Text.ofString " digits; use sys.set_int_max_str_digits() to increase the limit"

/-- Why a document is not written. -/
inductive WriteError where
  /-- There is no text for it. -/
  | refused (refusal : Json.Refusal)
  | path (fault : PathFault)
  /-- The file cannot be opened, or not all of the text gets there. -/
  | failed (reason : Text)
  /-- The text has a lone surrogate, which has no UTF-8 form. -/
  | unencodable
  deriving DecidableEq, Repr

namespace Document

/-- Text with every kind of line end made a newline. -/
def universalNewlines : Text → Text
  | [] => []
  | c :: rest =>
      if c = ('\r' : Char) then
        match rest with
        | [] => [CodePoint.ofChar '\n']
        | d :: more =>
            if d = ('\n' : Char) then CodePoint.ofChar '\n' :: universalNewlines more
            else CodePoint.ofChar '\n' :: universalNewlines (d :: more)
      else c :: universalNewlines rest

section

variable [Json.Limits]

/-- The document that a text holds; a text that does not hold one is reported for
`path`. -/
def parse (path text : Text) : Except LoadError Document :=
  let invalid (reason : Text) : Except LoadError Document :=
    .error (.unusable ⟨path, .invalid reason⟩)
  match Json.read text with
  | .error (.malformed fault remaining) => invalid (Json.malformedMessage text fault remaining)
  | .error (.tooManyDigits count) => .error (.tooManyDigits count)
  | .error .tooDeep => .error .tooDeep
  | .ok (.obj members) => .ok members
  | .ok value => invalid (Text.ofString "expected a JSON object, got " ++ value.typeName)

/-- The document that bytes hold. -/
def decode (path : Text) (content : Bytes) : Except LoadError Document :=
  match Utf8.decode? content with
  | none => .error .undecodable
  | some text => parse path (universalNewlines text)

/-- The text of a written document. -/
def render (document : Document) : Text :=
  Json.pretty (.obj document) ++ [CodePoint.ofChar '\n']

/-- The text of a document, unless the writer refuses it. -/
def text? (document : Document) : Except Json.Refusal Text :=
  match Json.refusal? Json.Limits.writeDepth (.obj document) with
  | some refusal => .error refusal
  | none => .ok document.render

end

end Document

namespace FileSystem

/-- Write a text to the file at a place.  A file that cannot be opened stays as it is.  Any
other is emptied first, and stays so if the text has no UTF-8 form. -/
def writeText (fs : FileSystem) (place : AbsolutePath) (text : Text) :
    FileSystem × Option WriteError :=
  match fs.fault? place, Utf8.encode? text with
  | some (.refused reason), _ => (fs, some (.failed reason))
  | _, none => (fs.overwrite place [], some .unencodable)
  | some (.cut kept reason), some bytes =>
      (fs.overwrite place (bytes.take kept), some (.failed reason))
  | none, some bytes => (fs.overwrite place bytes, none)

section

variable [Json.Limits]

/-- Load the document at a path. -/
def readMessages (fs : FileSystem) (path : Path) : Except LoadError Document :=
  match fs.readFile path with
  | .error (.path fault) => .error (.path fault)
  | .error (.os .notFound) => .error (.unusable ⟨path.toText, .notFound⟩)
  | .error (.os e) => .error (.unusable ⟨path.toText, .invalid (e.message path.toText)⟩)
  | .ok file => Document.decode path.toText file.content

/-- Write a document to the file at a path.  Its text is made before the file is looked for. -/
def writeMessages (fs : FileSystem) (path : Path) (document : Document) :
    FileSystem × Option WriteError :=
  match document.text? with
  | .error refusal => (fs, some (.refused refusal))
  | .ok text =>
      match fs.writable path with
      | .error (.path fault) => (fs, some (.path fault))
      | .error (.os e) => (fs, some (.failed (e.message path.toText)))
      | .ok place => fs.writeText place text

end

end FileSystem

end MessageKeys
