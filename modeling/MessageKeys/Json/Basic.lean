import MessageKeys.Assoc
import MessageKeys.Number.Binary64
import MessageKeys.Text.Basic

/-!
# JSON values

A whole number keeps all its digits, any other number is a binary64 value, and the members
of an object keep the order of the document.

How long a whole number and how deep a value can be read and written is a matter of the
surroundings (`Json.Limits`): the length is a setting, and the depth depends on the stack that
is left.
-/

namespace MessageKeys

/-- A JSON value. -/
inductive Json where
  | null
  | bool (b : Bool)
  | int (n : Int)
  | real (x : Binary64)
  | str (s : Text)
  | arr (items : List Json)
  | obj (members : List (Text × Json))
  deriving Repr

namespace Json

instance : Inhabited Json := ⟨null⟩

/-- The word for a kind of value in messages about a value of the wrong kind. -/
def typeName : Json → Text
  | null => "NoneType"
  | bool _ => "bool"
  | int _ => "int"
  | real _ => "float"
  | str _ => "str"
  | arr _ => "list"
  | obj _ => "dict"

/-- The members of an object. -/
def members? : Json → Option (List (Text × Json))
  | obj members => some members
  | _ => none

/-- The text of a string. -/
def text? : Json → Option Text
  | str s => some s
  | _ => none

/-- A member of an object. -/
def get? (name : Text) : Json → Option Json
  | obj members => Assoc.get? name members
  | _ => none

/-- What can be read and written. -/
class Limits where
  /-- The longest whole number, in digits. -/
  digits : Nat
  /-- The deepest nesting of arrays and objects that the reader follows. -/
  readDepth : Nat
  /-- The deepest nesting of arrays and objects that the writer follows. -/
  writeDepth : Nat
  /-- The setting cannot be lower. -/
  le_digits : 640 ≤ digits
  /-- A flat array or object can be read. -/
  readDepth_pos : 0 < readDepth

end Json

namespace Usual

/-- Whole numbers of up to 4300 digits, and a stack for 990 levels. -/
scoped instance limits : Json.Limits where
  digits := 4300
  readDepth := 990
  writeDepth := 990
  le_digits := by decide
  readDepth_pos := by decide

end Usual

end MessageKeys
