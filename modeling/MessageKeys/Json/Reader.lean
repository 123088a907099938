import MessageKeys.Json.Basic
import MessageKeys.Number.Decimal

/-!
# Reading JSON

The reader accepts JSON with the constants `NaN`, `Infinity` and `-Infinity` besides.
Blanks are space, tab, newline and carriage return.  A name that occurs twice in an object
keeps its first place and its last value.

A failure is reported where reading stopped.  Readers take and return the text that is
still to be read, so the place of a failure is the number of code points left there, and
`Position.ofRemaining` turns it into a line and a column.
-/

namespace MessageKeys.Json

/-- What was wrong with the text. -/
inductive Fault where
  | expectedValue
  | expectedName
  | expectedColon
  | expectedComma
  | unterminatedString
  | controlCharacter
  | badEscape
  | badUnicodeEscape
  | extraData
  | byteOrderMark
  deriving DecidableEq, Repr

/-- Why a text is not a document. -/
inductive ReadError where
  /-- The text is malformed where `remaining` code points are left. -/
  | malformed (fault : Fault) (remaining : Nat)
  /-- A whole number has more digits than the reader takes. -/
  | tooManyDigits (count : Nat)
  /-- Arrays and objects are nested deeper than the reader goes. -/
  | tooDeep
  deriving DecidableEq, Repr

/-- The wording of a fault. -/
def Fault.message : Fault → Text
  | .expectedValue => "Expecting value"
  | .expectedName => "Expecting property name enclosed in double quotes"
  | .expectedColon => "Expecting ':' delimiter"
  | .expectedComma => "Expecting ',' delimiter"
  | .unterminatedString => "Unterminated string starting at"
  | .controlCharacter => "Invalid control character at"
  | .badEscape => "Invalid \\escape"
  | .badUnicodeEscape => "Invalid \\uXXXX escape"
  | .extraData => "Extra data"
  | .byteOrderMark => "Unexpected UTF-8 BOM (decode using utf-8-sig)"

/-- A place in a text. -/
structure Position where
  line : Nat
  column : Nat
  offset : Nat
  deriving DecidableEq, Repr

/-- The place at which `remaining` code points of the text are left.  Lines and columns
count from one, offsets from zero. -/
def Position.ofRemaining (text : Text) (remaining : Nat) : Position :=
  let offset := text.length - remaining
  let before := text.take offset
  { line := before.count (CodePoint.ofChar '\n') + 1
    column := (before.reverse.takeWhile (· ≠ CodePoint.ofChar '\n')).length + 1
    offset }

/-- The message for a malformed text. -/
def malformedMessage (text : Text) (fault : Fault) (remaining : Nat) : Text :=
  let position := Position.ofRemaining text remaining
  fault.message ++ (": line " : Text) ++ Numeral.decimal position.line ++ (" column " : Text)
    ++ Numeral.decimal position.column ++ (" (char " : Text) ++ Numeral.decimal position.offset
    ++ (")" : Text)

/-- The result of reading something from the front of a text. -/
abbrev Reading (α : Type) := Except ReadError (α × Text)

/-- Report a fault at the front of `rest`. -/
def fail {α : Type} (fault : Fault) (rest : Text) : Except ReadError α :=
  .error (.malformed fault rest.length)

/-- A blank between tokens. -/
def isBlank (c : CodePoint) : Bool :=
  c.val == 0x20 || c.val == 0x09 || c.val == 0x0a || c.val == 0x0d

/-- Skip blanks. -/
def skipBlanks (t : Text) : Text :=
  t.dropWhile isBlank

/-- The code point of an escape with one letter. -/
def simpleEscape? (letter : CodePoint) : Option CodePoint :=
  if letter = ('"' : Char) then some (CodePoint.ofNat 0x22)
  else if letter = ('\\' : Char) then some (CodePoint.ofNat 0x5c)
  else if letter = ('/' : Char) then some (CodePoint.ofNat 0x2f)
  else if letter = ('b' : Char) then some (CodePoint.ofNat 0x08)
  else if letter = ('f' : Char) then some (CodePoint.ofNat 0x0c)
  else if letter = ('n' : Char) then some (CodePoint.ofNat 0x0a)
  else if letter = ('r' : Char) then some (CodePoint.ofNat 0x0d)
  else if letter = ('t' : Char) then some (CodePoint.ofNat 0x09)
  else none

/-- The number of four hexadecimal digits at the front of a text. -/
def hexQuad? (t : Text) : Option Nat :=
  if (t.take 4).length < 4 then none else Text.hexNumber? (t.take 4)

/-- The code point that two halves of a surrogate pair stand for. -/
def joinSurrogates (high low : Nat) : CodePoint :=
  CodePoint.ofNat (0x10000 + (high - 0xd800) * 0x400 + (low - 0xdc00))

/-- Read an escape from its `u` on: the code point and the number of code points that it
takes up after the `u`.  A first half of a surrogate pair takes a second half that follows
it as an escape of its own; in either case the text has to go on after the digits. -/
def readUnicodeEscape (t : Text) : Except ReadError (CodePoint × Nat) :=
  let digits := t.drop 1
  let rest := digits.drop 4
  match hexQuad? digits with
  | none => fail .badUnicodeEscape t
  | some first =>
      let high : CodePoint := CodePoint.ofNat first
      if rest.isEmpty then fail .badUnicodeEscape t
      else if high.isHighSurrogate && !(rest.drop 6).isEmpty
          && (Text.ofString "\\u").isPrefixOf rest then
        match hexQuad? (rest.drop 2) with
        | none => fail .badUnicodeEscape (rest.drop 1)
        | some second =>
            let low : CodePoint := CodePoint.ofNat second
            if low.isLowSurrogate then .ok (joinSurrogates first second, 10)
            else .ok (high, 4)
      else .ok (high, 4)

/-- Read a string after its opening quote, which stood at the front of `opening`. -/
def readString (opening t : Text) : Reading Text :=
  match t with
  | [] => fail .unterminatedString opening
  | c :: rest =>
      if c = ('"' : Char) then .ok ([], rest)
      else if c = ('\\' : Char) then
        match rest with
        | [] => fail .unterminatedString opening
        | letter :: after =>
            if letter = ('u' : Char) then
              match readUnicodeEscape rest with
              | .error e => .error e
              | .ok (point, taken) =>
                  match readString opening (after.drop taken) with
                  | .error e => .error e
                  | .ok (tail, left) => .ok (point :: tail, left)
            else match simpleEscape? letter with
              | none => fail .badEscape (c :: rest)
              | some point =>
                  match readString opening after with
                  | .error e => .error e
                  | .ok (tail, left) => .ok (point :: tail, left)
      else if c.val < 0x20 then fail .controlCharacter (c :: rest)
      else match readString opening rest with
        | .error e => .error e
        | .ok (tail, left) => .ok (c :: tail, left)
termination_by t.length
decreasing_by all_goals simp only [List.length_cons, List.length_drop]; omega

/-- The exponent part of a number: its value and the text after it.  A letter without
digits after it is no exponent. -/
def readExponent? (t : Text) : Option (Int × Text) :=
  match t with
  | [] => none
  | e :: rest =>
      if e = ('e' : Char) || e = ('E' : Char) then
        let (negative, digitsOn) :=
          match rest with
          | [] => (false, rest)
          | sign :: after =>
              if sign = ('-' : Char) then (true, after)
              else if sign = ('+' : Char) then (false, after)
              else (false, rest)
        let digits := digitsOn.takeWhile CodePoint.isDigit
        if digits.isEmpty then none
        else
          let size : Int := Numeral.value digits
          some (if negative then -size else size, digitsOn.dropWhile CodePoint.isDigit)
      else none

/-- The fraction part of a number: its digits and the text after it.  A point without
digits after it is no fraction. -/
def readFraction? (t : Text) : Option (Text × Text) :=
  match t with
  | [] => none
  | point :: rest =>
      if point = ('.' : Char) then
        let digits := rest.takeWhile CodePoint.isDigit
        if digits.isEmpty then none else some (digits, rest.dropWhile CodePoint.isDigit)
      else none

/-- The whole part of a number: a zero alone, or digits that start with another one. -/
def readWhole? (t : Text) : Option (Text × Text) :=
  match t with
  | [] => none
  | c :: rest =>
      if c = ('0' : Char) then some ([c], rest)
      else if c.isDigit then
        some (t.takeWhile CodePoint.isDigit, t.dropWhile CodePoint.isDigit)
      else none

section

variable [Limits]

/-- Read a number. -/
def readNumber (t : Text) : Reading Json :=
  let negative := (Text.ofString "-").isPrefixOf t
  match readWhole? (if negative then t.drop 1 else t) with
  | none => fail .expectedValue t
  | some (whole, afterWhole) =>
      let fraction := readFraction? afterWhole
      let fractionDigits := (fraction.map Prod.fst).getD []
      let afterFraction := (fraction.map Prod.snd).getD afterWhole
      match fraction, readExponent? afterFraction with
      | none, none =>
          if Limits.digits < whole.length then .error (.tooManyDigits whole.length)
          else
            let size : Int := Numeral.value whole
            .ok (.int (if negative then -size else size), afterWhole)
      | _, exponent =>
          let scale := (exponent.map Prod.fst).getD 0 - (fractionDigits.length : Int)
          .ok (.real (Binary64.ofDecimal negative (Numeral.value (whole ++ fractionDigits)) scale),
            (exponent.map Prod.snd).getD afterFraction)

/-- The constants that stand for themselves. -/
def constants : List (Text × Json) :=
  [("null", .null), ("true", .bool true), ("false", .bool false), ("NaN", .real Binary64.nan),
    ("Infinity", .real (Binary64.infinity false)), ("-Infinity", .real (Binary64.infinity true))]

/-- The constant at the front of a text. -/
def readConstant? (t : Text) : Option (Json × Text) :=
  constants.findSome? fun (word, value) =>
    if word.isPrefixOf t then some (value, t.drop word.length) else none

mutual

/-- Read a value that may hold `room` levels of arrays and objects.  The first argument
bounds the nesting of calls; `readWithin` gives as many as any text of the length can
use. -/
def readValue : Nat → Nat → Text → Reading Json
  | 0, _, t => fail .expectedValue t
  | _ + 1, _, [] => fail .expectedValue []
  | bound + 1, room, c :: rest =>
      if c = ('"' : Char) then
        match readString (c :: rest) rest with
        | .error e => .error e
        | .ok (s, left) => .ok (.str s, left)
      else if c.val = 0x7b then
        match room, skipBlanks rest with
        | 0, _ => .error .tooDeep
        | _ + 1, [] => fail .expectedName []
        | room + 1, d :: after =>
            if d.val = 0x7d then .ok (.obj [], after)
            else match readMembers bound room (d :: after) with
              | .error e => .error e
              | .ok (members, left) => .ok (.obj (Assoc.ofList members), left)
      else if c = ('[' : Char) then
        match room, skipBlanks rest with
        | 0, _ => .error .tooDeep
        | _ + 1, [] => fail .expectedValue []
        | room + 1, d :: after =>
            if d = (']' : Char) then .ok (.arr [], after)
            else match readItems bound room (d :: after) with
              | .error e => .error e
              | .ok (items, left) => .ok (.arr items, left)
      else match readConstant? (c :: rest) with
        | some found => .ok found
        | none => readNumber (c :: rest)

/-- Read the members of an object from the name of the first to the closing brace. -/
def readMembers : Nat → Nat → Text → Reading (List (Text × Json))
  | 0, _, t => fail .expectedName t
  | _ + 1, _, [] => fail .expectedName []
  | bound + 1, room, c :: rest =>
      if c ≠ ('"' : Char) then fail .expectedName (c :: rest)
      else match readString (c :: rest) rest with
        | .error e => .error e
        | .ok (name, afterName) =>
            let beforeColon := skipBlanks afterName
            match beforeColon with
            | [] => fail .expectedColon []
            | colon :: afterColon =>
                if colon ≠ (':' : Char) then fail .expectedColon beforeColon
                else match readValue bound room (skipBlanks afterColon) with
                  | .error e => .error e
                  | .ok (value, afterValue) =>
                      let next := skipBlanks afterValue
                      match next with
                      | [] => fail .expectedComma []
                      | d :: after =>
                          if d.val = 0x7d then .ok ([(name, value)], after)
                          else if d ≠ (',' : Char) then fail .expectedComma next
                          else match readMembers bound room (skipBlanks after) with
                            | .error e => .error e
                            | .ok (members, left) => .ok ((name, value) :: members, left)

/-- Read the items of an array from the first to the closing bracket. -/
def readItems : Nat → Nat → Text → Reading (List Json)
  | 0, _, t => fail .expectedValue t
  | bound + 1, room, t =>
      match readValue bound room t with
      | .error e => .error e
      | .ok (item, afterItem) =>
          let next := skipBlanks afterItem
          match next with
          | [] => fail .expectedComma []
          | d :: after =>
              if d = (']' : Char) then .ok ([item], after)
              else if d ≠ (',' : Char) then fail .expectedComma next
              else match readItems bound room (skipBlanks after) with
                | .error e => .error e
                | .ok (items, left) => .ok (item :: items, left)

end

/-- Read a whole text as one value of at most `room` levels of arrays and objects. -/
def readWithin (room : Nat) (text : Text) : Except ReadError Json :=
  match text with
  | [] => fail .expectedValue []
  | c :: _ =>
      if c.val = 0xfeff then fail .byteOrderMark text
      else match readValue (2 * text.length + 2) room (skipBlanks text) with
        | .error e => .error e
        | .ok (value, left) =>
            let rest := skipBlanks left
            if rest.isEmpty then .ok value else fail .extraData rest

/-- Read a whole text as one value. -/
def read (text : Text) : Except ReadError Json :=
  readWithin Limits.readDepth text

end

end MessageKeys.Json
