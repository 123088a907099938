import MessageKeys.Files.Path
import MessageKeys.Report.Notice

/-!
# Locales

A locale code names a document of the messages directory, so it must not contain anything
that leads out of it.  Codes outside the catalogue of known locales are used all the same,
with a notice.  What the catalogue holds is a matter of the data at hand.
-/

namespace MessageKeys.Locale

/-- Why a locale code cannot name a document. -/
inductive Invalid where
  | empty
  | traversal (code : Text)
  | separator (code : Text)
  deriving DecidableEq, Repr

/-- The wording of an invalid locale code. -/
def Invalid.message : Invalid → Text
  | .empty => "Locale code cannot be empty"
  | .traversal code =>
      Text.ofString "Path traversal sequences not allowed in locale: '" ++ code ++ Text.ofString "'"
  | .separator code =>
      Text.ofString "Path separators not allowed in locale: '" ++ code ++ Text.ofString "'"

/-- What is wrong with a locale code, if anything. -/
def fault? (code : Text) : Option Invalid :=
  if code.isEmpty then some .empty
  else if Text.includes PathName.up code then some (.traversal code)
  else if code.contains PathName.slash || code.contains (CodePoint.ofChar '\\') then
    some (.separator code)
  else none

/-- The name of the document for a locale. -/
def documentName (code : Text) : Text :=
  code ++ Text.ofString ".json"

/-- The path of the document for a locale in a directory. -/
def documentPath (directory : Path) (code : Text) : Except Invalid Path :=
  match fault? code with
  | some fault => .error fault
  | none => .ok (directory.join (Path.ofText (documentName code)))

/-- The code with underscores for hyphens. -/
def posix (code : Text) : Text :=
  code.map fun (c : CodePoint) => if c = ('-' : Char) then CodePoint.ofChar '_' else c

/-- A catalogue of known locales. -/
class Catalogue where
  /-- Whether a code in this form is that of a known locale. -/
  holds : Text → Bool

section

variable [Catalogue]

/-- Whether a locale is in the catalogue. -/
def isKnown (code : Text) : Bool :=
  Catalogue.holds (posix code)

/-- The notice for a code that is not in the catalogue. -/
def notices (context code : Text) : List Notice :=
  if isKnown code then [] else [.unknownLocale context code]

end

end MessageKeys.Locale
