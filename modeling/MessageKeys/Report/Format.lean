import MessageKeys.Json.Writer
import MessageKeys.Report.Diagnostic

/-!
# Formats of diagnostics

A diagnostic is shown as a block of lines, on a single line, or as a JSON object on a
line.  A formatter may cut long messages and, in blocks, colour the severity.
-/

namespace MessageKeys

/-- The shape of a shown diagnostic. -/
inductive ReportStyle where
  | block
  | line
  | json
  deriving DecidableEq, Repr

namespace ReportStyle

/-- The name by which a style is chosen. -/
def name : ReportStyle → Text
  | block => "rust"
  | line => "simple"
  | json => "json"

/-- All styles. -/
def all : List ReportStyle := [block, line, json]

/-- The style with a name. -/
def ofName? (text : Text) : Option ReportStyle :=
  all.find? fun style => style.name == text

/-- The wording of a style that does not exist, for the way it is written. -/
def unknownMessage (written : Text) : Text :=
  written ++ Text.ofString " is not a valid OutputFormat"

end ReportStyle

/-- How diagnostics are shown. -/
structure Formatter where
  style : ReportStyle := .block
  sanitize : Bool := false
  color : Bool := false
  maxLength : Int := 100
  deriving DecidableEq, Repr

/-- The part of a text up to an index; a negative index counts from the end. -/
def Text.upTo (t : Text) (index : Int) : Text :=
  if 0 ≤ index then t.take index.toNat else t.take (t.length - (-index).toNat)

/-- The text of an optional field, unless it is absent or empty. -/
def Text.filled? (field : Option Text) : Option Text :=
  field.filter fun text => !text.isEmpty

/-- The terminal code that switches to the colour of a severity.  Custom ones have no
colour. -/
def Severity.color? : Severity → Option Text
  | error => some "\x1b[1;31m"
  | warning => some "\x1b[1;33m"
  | info => some "\x1b[1;36m"
  | custom _ => none

namespace Formatter

/-- Why a diagnostic cannot be shown. -/
inductive Failure where
  | noColor (severity : Text)
  deriving DecidableEq, Repr

/-- Cut a text that is too long. -/
def cut (f : Formatter) (t : Text) : Text :=
  if f.sanitize && decide (f.maxLength < (t.length : Int)) then
    t.upTo f.maxLength ++ Text.ofString "..."
  else t

/-- The severity as it is shown in a block. -/
def severityText (f : Formatter) (severity : Severity) : Except Failure Text :=
  if f.color then
    match severity.color? with
    | some color => .ok (color ++ severity.name ++ Text.ofString "\x1b[0m")
    | none => .error (.noColor severity.name)
  else .ok severity.name

/-- The lines of a block below its first. -/
def details (f : Formatter) (d : Diagnostic) : List Text :=
  let place : Option Text :=
    match d.span with
    | some span => some span.describe
    | none => Text.filled? d.document
  (place.map (Text.ofString "  --> " ++ ·)).toList
    ++ ((Text.filled? d.space).map (Text.ofString "  = namespace: " ++ ·)).toList
    ++ ((Text.filled? d.hint).map fun hint => Text.ofString "  = help: " ++ f.cut hint).toList

/-- The block of lines that starts with a given text for the severity. -/
def blockWith (f : Formatter) (severity : Text) (d : Diagnostic) : Text :=
  let first := severity ++ Text.ofString "[" ++ d.code.name ++ Text.ofString "]: "
    ++ f.cut d.message
  Text.join [CodePoint.ofChar '\n'] (first :: f.details d)

/-- A diagnostic as a block of lines. -/
def block (f : Formatter) (d : Diagnostic) : Except Failure Text :=
  (f.severityText d.severity).map fun severity => f.blockWith severity d

/-- A diagnostic on one line. -/
def line (f : Formatter) (d : Diagnostic) : Text :=
  let place : Text :=
    match d.span with
    | some span => span.describe ++ Text.ofString ": "
    | none => []
  place ++ d.code.name ++ Text.ofString ": " ++ f.cut d.message

/-- The members of a diagnostic's JSON object. -/
def members (f : Formatter) (d : Diagnostic) : List (Text × Json) :=
  let place : List (Text × Json) :=
    match d.span with
    | some span =>
        [("path", .str span.path), ("line", .int span.line), ("column", .int span.column),
          ("start", .int span.start), ("end", .int span.stop)]
    | none => []
  let head : List (Text × Json) :=
    [("code", .str d.code.name), ("code_value", .int d.code.number),
      ("message", .str (f.cut d.message)), ("severity", .str d.severity.name)]
  let filled (name : String) (field : Option Text) : List (Text × Json) :=
    (field.map fun text => (Text.ofString name, Json.str text)).toList
  head ++ place ++ filled "key" (Text.filled? d.key) ++ filled "namespace" (Text.filled? d.space)
    ++ filled "document" (Text.filled? d.document)
    ++ filled "hint" ((Text.filled? d.hint).map f.cut)

/-- Show a diagnostic. -/
def format (f : Formatter) (d : Diagnostic) : Except Failure Text :=
  match f.style with
  | .block => f.block d
  | .line => .ok (f.line d)
  | .json => .ok (Json.compact (.obj (f.members d)))

/-- What stands between two shown diagnostics. -/
def separator (f : Formatter) : Text :=
  match f.style with
  | .json => "\n"
  | _ => "\n\n"

/-- Show diagnostics one after the other. -/
def formatAll (f : Formatter) (ds : List Diagnostic) : Except Failure Text :=
  match ds.mapM f.format with
  | .error e => .error e
  | .ok shown => .ok (Text.join f.separator shown)

end Formatter

/-- The block of a diagnostic without colours or cuts. -/
def Diagnostic.plainBlock (d : Diagnostic) : Text :=
  ({} : Formatter).blockWith d.severity.name d

end MessageKeys
