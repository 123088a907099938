import MessageKeys.Json.Basic
import MessageKeys.Number.Shortest

/-!
# Writing JSON

A document is written with two spaces for each level and a line for each member or item; a
diagnostic is written on one line.  Only quotes, backslashes and control characters are
escaped in strings.  A number that is not whole is written with the fewest digits that
read back.

A document with a whole number that is too long, or that is nested too deep, is refused.
-/

namespace MessageKeys.Json

/-- The written form of a code point inside a string. -/
def escaped (c : CodePoint) : Text :=
  if c = ('"' : Char) then "\\\""
  else if c = ('\\' : Char) then "\\\\"
  else if c = ('\n' : Char) then "\\n"
  else if c = ('\r' : Char) then "\\r"
  else if c = ('\t' : Char) then "\\t"
  else if c.val = 0x08 then "\\b"
  else if c.val = 0x0c then "\\f"
  else if c.val < 0x20 then Text.ofString "\\u" ++ Numeral.hex 4 c.val
  else [c]

/-- A string in quotes. -/
def quoted (s : Text) : Text :=
  Text.ofString "\"" ++ s.flatMap escaped ++ Text.ofString "\""

/-- How a number that is not whole is laid out. -/
structure RealFormat where
  /-- The least exponent that is written positionally. -/
  lowest : Int
  /-- The first exponent too large to be written positionally. -/
  tooLarge : Int
  /-- The least number of digits of a written exponent. -/
  exponentWidth : Nat

/-- Reals are positional from `0.0001` up to sixteen places before the point, and an
exponent has at least two digits. -/
def realFormat : RealFormat := ⟨-4, 16, 2⟩

/-- Zeros. -/
def zeros (count : Nat) : Text :=
  List.replicate count (CodePoint.ofChar '0')

/-- Lay out a decimal.  Positional notation always shows a digit after the point. -/
def layout (format : RealFormat) (decimal : Decimal) : Text :=
  let digits := Numeral.decimal decimal.digits
  let point : Int := (digits.length : Int) + decimal.exponent
  let exponent := point - 1
  if format.lowest ≤ exponent && exponent < format.tooLarge then
    if point ≤ 0 then Text.ofString "0." ++ zeros (-point).toNat ++ digits
    else if (digits.length : Int) ≤ point then
      digits ++ zeros (point - digits.length).toNat ++ Text.ofString ".0"
    else digits.take point.toNat ++ Text.ofString "." ++ digits.drop point.toNat
  else
    let size := Numeral.decimal exponent.natAbs
    digits.take 1 ++ (if digits.length ≤ 1 then [] else Text.ofString "." ++ digits.drop 1)
      ++ Text.ofString (if exponent < 0 then "e-" else "e+")
      ++ zeros (format.exponentWidth - size.length) ++ size

/-- The written form of a number that is not whole. -/
def realText (x : Binary64) : Text :=
  match x.shape with
  | .notANumber => "NaN"
  | .infinite negative => if negative then "-Infinity" else "Infinity"
  | .finite negative mantissa exponent =>
      (if negative then Text.ofString "-" else [])
        ++ if mantissa = 0 then Text.ofString "0.0"
          else layout realFormat (Decimal.shortest mantissa exponent)

/-- A new line at a level of nesting. -/
def newline (level : Nat) : Text :=
  CodePoint.ofChar '\n' :: List.replicate (2 * level) (CodePoint.ofChar ' ')

mutual

/-- The indented form of a value at a level of nesting, with a text after it. -/
def prettyOnto (level : Nat) (rest : Text) : Json → Text
  | .null => Text.ofString "null" ++ rest
  | .bool b => Text.ofString (if b then "true" else "false") ++ rest
  | .int n => Numeral.signed n ++ rest
  | .real x => realText x ++ rest
  | .str s => quoted s ++ rest
  | .arr [] => Text.ofString "[]" ++ rest
  | .arr (item :: items) =>
      let close := newline level ++ (Text.ofString "]" ++ rest)
      Text.ofString "[" ++ (newline (level + 1)
        ++ prettyOnto (level + 1) (prettyItems (level + 1) close items) item)
  | .obj [] => Text.ofString "\x7b\x7d" ++ rest
  | .obj ((name, value) :: members) =>
      let close := newline level ++ (Text.ofString "\x7d" ++ rest)
      Text.ofString "\x7b" ++ (newline (level + 1) ++ (quoted name ++ (Text.ofString ": "
        ++ prettyOnto (level + 1) (prettyMembers (level + 1) close members) value)))

/-- The items after the first, each on its line, with a text after them. -/
def prettyItems (level : Nat) (rest : Text) : List Json → Text
  | [] => rest
  | item :: items =>
      Text.ofString "," ++ (newline level
        ++ prettyOnto level (prettyItems level rest items) item)

/-- The members after the first, each on its line, with a text after them. -/
def prettyMembers (level : Nat) (rest : Text) : List (Text × Json) → Text
  | [] => rest
  | (name, value) :: members =>
      Text.ofString "," ++ (newline level ++ (quoted name ++ (Text.ofString ": "
        ++ prettyOnto level (prettyMembers level rest members) value)))

end

/-- The indented form of a value. -/
def pretty (value : Json) : Text :=
  prettyOnto 0 [] value

/-- Why a value is not written. -/
inductive Refusal where
  | tooManyDigits
  | tooDeep
  deriving DecidableEq, Repr

section

variable [Limits]

mutual

/-- What the writer comes upon first in a value that it cannot write, if it may go down `room`
levels of arrays and objects. -/
def refusal? (room : Nat) : Json → Option Refusal
  | .int n =>
      if Limits.digits < (Numeral.decimal n.natAbs).length then some .tooManyDigits else none
  | .arr items =>
      match room with
      | 0 => some .tooDeep
      | room + 1 => itemsRefusal? room items
  | .obj members =>
      match room with
      | 0 => some .tooDeep
      | room + 1 => membersRefusal? room members
  | _ => none

/-- What the writer comes upon first in the items of an array. -/
def itemsRefusal? (room : Nat) : List Json → Option Refusal
  | [] => none
  | item :: items =>
      match refusal? room item with
      | some refusal => some refusal
      | none => itemsRefusal? room items

/-- What the writer comes upon first in the members of an object. -/
def membersRefusal? (room : Nat) : List (Text × Json) → Option Refusal
  | [] => none
  | (_, value) :: members =>
      match refusal? room value with
      | some refusal => some refusal
      | none => membersRefusal? room members

end

end

mutual

/-- The form of a value on one line. -/
def compact : Json → Text
  | .null => "null"
  | .bool b => if b then "true" else "false"
  | .int n => Numeral.signed n
  | .real x => realText x
  | .str s => quoted s
  | .arr [] => "[]"
  | .arr (item :: items) =>
      Text.ofString "[" ++ compact item ++ compactItems items ++ Text.ofString "]"
  | .obj [] => "\x7b\x7d"
  | .obj ((name, value) :: members) =>
      Text.ofString "\x7b" ++ quoted name ++ Text.ofString ": " ++ compact value
        ++ compactMembers members ++ Text.ofString "\x7d"

/-- The items after the first. -/
def compactItems : List Json → Text
  | [] => []
  | item :: items => Text.ofString ", " ++ compact item ++ compactItems items

/-- The members after the first. -/
def compactMembers : List (Text × Json) → Text
  | [] => []
  | (name, value) :: members =>
      Text.ofString ", " ++ quoted name ++ Text.ofString ": " ++ compact value
        ++ compactMembers members

end

end MessageKeys.Json
