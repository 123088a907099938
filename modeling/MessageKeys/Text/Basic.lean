/-!
# Text

Source literals and message documents may name any Unicode code point in an escape, half
of a surrogate pair included, and the two halves of a pair stay two code points until they
are written out.  Text is therefore a list of code points rather than of characters.  Its
order is lexicographic by code point, which is the order of every sorted list in a report.
-/

namespace MessageKeys

/-- A Unicode code point, surrogates included. -/
abbrev CodePoint := Fin 0x110000

namespace CodePoint

/-- The code point of a character. -/
def ofChar (c : Char) : CodePoint :=
  ⟨c.toNat, by
    have hvalid : c.toNat < 0xd800 ∨ 0xdfff < c.toNat ∧ c.toNat < 0x110000 := c.valid
    omega⟩

instance : Coe Char CodePoint := ⟨ofChar⟩

/-- The code point with a number; a number out of range is taken modulo the bound. -/
def ofNat (n : Nat) : CodePoint :=
  ⟨n % 0x110000, Nat.mod_lt n (by decide)⟩

/-- Half of a surrogate pair: a code point without a character of its own. -/
def isSurrogate (c : CodePoint) : Bool :=
  0xd800 ≤ c.val && c.val ≤ 0xdfff

/-- The first half of a surrogate pair. -/
def isHighSurrogate (c : CodePoint) : Bool :=
  0xd800 ≤ c.val && c.val ≤ 0xdbff

/-- The second half of a surrogate pair. -/
def isLowSurrogate (c : CodePoint) : Bool :=
  0xdc00 ≤ c.val && c.val ≤ 0xdfff

/-- The character of a code point, or U+FFFD for a lone surrogate. -/
def toChar (c : CodePoint) : Char :=
  if c.isSurrogate then '\ufffd' else Char.ofNat c.val

/-- An ASCII decimal digit. -/
def isDigit (c : CodePoint) : Bool :=
  0x30 ≤ c.val && c.val ≤ 0x39

/-- The value of a hexadecimal digit of either case. -/
def hexValue? (c : CodePoint) : Option Nat :=
  if c.isDigit then some (c.val - 0x30)
  else if 0x41 ≤ c.val && c.val ≤ 0x46 then some (c.val - 0x41 + 10)
  else if 0x61 ≤ c.val && c.val ≤ 0x66 then some (c.val - 0x61 + 10)
  else none

end CodePoint

/-- A sequence of code points. -/
abbrev Text := List CodePoint

namespace Text

/-- The code points of a string. -/
def ofString (s : String) : Text :=
  s.toList.map CodePoint.ofChar

instance : Coe String Text := ⟨ofString⟩

/-- The string of a text; a lone surrogate shows as U+FFFD. -/
def toString (t : Text) : String :=
  String.ofList (t.map CodePoint.toChar)

/-- Whether `part` occurs somewhere in the text. -/
def includes (part : Text) : Text → Bool
  | [] => part.isEmpty
  | c :: rest => part.isPrefixOf (c :: rest) || includes part rest

/-- Cut a text at every `separator`.  There is always one piece more than there are
separators. -/
def splitOn (separator : CodePoint) : Text → List Text
  | [] => [[]]
  | c :: rest =>
      if c = separator then [] :: splitOn separator rest
      else match splitOn separator rest with
        | [] => [[c]]
        | piece :: pieces => (c :: piece) :: pieces

/-- Join pieces with a separator between neighbours. -/
def join (separator : Text) (pieces : List Text) : Text :=
  separator.intercalate pieces

/-- The number a run of hexadecimal digits stands for; `none` for an empty run and for a
run with any other code point in it. -/
def hexNumber? : Text → Option Nat
  | [] => none
  | digits => digits.foldlM (fun value c => (16 * value + ·) <$> c.hexValue?) 0

theorem splitOn_ne_nil (separator : CodePoint) (t : Text) : splitOn separator t ≠ [] := by
  cases t with
  | nil => simp [splitOn]
  | cons c rest =>
      unfold splitOn
      split
      · simp
      · split <;> simp

end Text

end MessageKeys
