import MessageKeys.Proofs.Json.Tokens
import MessageKeys.Usage.Trace

/-!
# Spellings of a text

A text can be spelled in many ways inside quotes: as it is, by escapes with one letter, by
numbered escapes of three forms, and with line ends hidden behind a backslash.  A spelling is
a list of pieces; `Piece.nodes` says how a literal writes a piece, `Piece.meaning` which text it
stands for.  Neither goes through the decoder of literals.

* A literal is decoded one escape at a time, so its value is put together from
  `Piece.reading` (`stringValue?_of_spelledBy`).  That is the meaning of the spelling unless some
  character is written as two halves of a surrogate pair, or a line is continued after a line
  or paragraph separator (`reading_eq_meaning_iff`).
* The reader of documents joins the halves of a pair, and so gives the meaning of every
  spelling that a document can have (`readString_spelled`).
-/

namespace MessageKeys

namespace Spelling

/-! ## Hexadecimal numbers -/

/-- A hexadecimal digit in either case. -/
structure HexDigit where
  value : Fin 16
  capital : Bool
  deriving DecidableEq, Repr

/-- The code point that a digit is written as. -/
def HexDigit.point (d : HexDigit) : CodePoint :=
  if d.value.val < 10 then CodePoint.ofNat (0x30 + d.value)
  else CodePoint.ofNat ((if d.capital then 0x41 else 0x61) + (d.value - 10))

/-- The text of a row of digits. -/
def digitText (digits : List HexDigit) : Text :=
  digits.map HexDigit.point

/-- The number that a row of digits stands for. -/
def number (digits : List HexDigit) : Nat :=
  digits.foldl (fun total d => 16 * total + d.value) 0

/-- Four digits. -/
structure Quad where
  (first second third fourth : HexDigit)
  deriving DecidableEq, Repr

/-- The digits of a quadruple, first to last. -/
def Quad.digits (q : Quad) : List HexDigit :=
  [q.first, q.second, q.third, q.fourth]

/-- The number of a quadruple. -/
def Quad.number (q : Quad) : Nat :=
  Spelling.number q.digits

/-! ## Pieces -/

/-- What ends a line of source text. -/
inductive LineEnd where
  | lineFeed
  | carriageReturn
  | carriageReturnLineFeed
  | lineSeparator
  | paragraphSeparator
  deriving DecidableEq, Repr

/-- The text of a line end. -/
def LineEnd.text : LineEnd → Text
  | lineFeed => [CodePoint.ofNat 0x0a]
  | carriageReturn => [CodePoint.ofNat 0x0d]
  | carriageReturnLineFeed => [CodePoint.ofNat 0x0d, CodePoint.ofNat 0x0a]
  | lineSeparator => [CodePoint.ofNat 0x2028]
  | paragraphSeparator => [CodePoint.ofNat 0x2029]

/-- The letters that stand for a control character after a backslash. -/
def controlLetters : List (CodePoint × CodePoint) :=
  [('b', CodePoint.ofNat 0x08), ('t', CodePoint.ofNat 0x09), ('n', CodePoint.ofNat 0x0a),
    ('v', CodePoint.ofNat 0x0b), ('f', CodePoint.ofNat 0x0c), ('r', CodePoint.ofNat 0x0d),
    ('0', CodePoint.ofNat 0)]

/-- What begins a longer escape, or none at all, after a backslash. -/
def reserved : Text :=
  Text.ofString "xu123456789" ++ [CodePoint.ofNat 0x0a, CodePoint.ofNat 0x0d,
    CodePoint.ofNat 0x2028, CodePoint.ofNat 0x2029]

/-- A number that is the code point of a character. -/
def IsScalar (n : Nat) : Prop :=
  n < 0xd800 ∨ 0xdfff < n ∧ n < 0x110000

instance (n : Nat) : Decidable (IsScalar n) :=
  inferInstanceAs (Decidable (_ ∨ _))

/-- A piece of a spelling. -/
inductive Piece where
  /-- Text that stands for itself. -/
  | fragment (t : Text)
  /-- A backslash and one more character. -/
  | character (c : CodePoint) (hfree : c ∉ reserved)
  /-- A number of two digits. -/
  | byte (first second : HexDigit)
  /-- A number of four digits. -/
  | quad (q : Quad) (hscalar : IsScalar q.number)
  /-- A character beyond four digits, by the two halves of its surrogate pair. -/
  | pair (high low : Quad) (hhigh : 0xd800 ≤ high.number ∧ high.number ≤ 0xdbff)
      (hlow : 0xdc00 ≤ low.number ∧ low.number ≤ 0xdfff)
  /-- A number of any length, in braces. -/
  | braced (first : HexDigit) (rest : List HexDigit) (hscalar : IsScalar (number (first :: rest)))
  /-- A line end that is no part of the text. -/
  | continuation (lineEnd : LineEnd)

namespace Piece

/-- The parts of a string literal that a piece is written as, each with its kind. -/
def nodes : Piece → List (Syntax.Kind × Text)
  | fragment t => [(.stringFragment, t)]
  | character c _ => [(.escapeSequence, [CodePoint.ofChar '\\', c])]
  | byte first second => [(.escapeSequence, Text.ofString "\\x" ++ digitText [first, second])]
  | quad q _ => [(.escapeSequence, Text.ofString "\\u" ++ digitText q.digits)]
  | pair high low _ _ =>
      [(.escapeSequence, Text.ofString "\\u" ++ digitText high.digits),
        (.escapeSequence, Text.ofString "\\u" ++ digitText low.digits)]
  | braced first rest _ =>
      [(.escapeSequence, Text.ofString "\\u\x7b" ++ digitText (first :: rest)
        ++ Text.ofString "\x7d")]
  | continuation lineEnd => [(.escapeSequence, CodePoint.ofChar '\\' :: lineEnd.text)]

/-- The text that a piece stands for. -/
def meaning : Piece → Text
  | fragment t => t
  | character c _ => [(Assoc.get? c controlLetters).getD c]
  | byte first second => [CodePoint.ofNat (number [first, second])]
  | quad q _ => [CodePoint.ofNat q.number]
  | pair high low _ _ =>
      [CodePoint.ofNat (0x10000 + (high.number - 0xd800) * 0x400 + (low.number - 0xdc00))]
  | braced first rest _ => [CodePoint.ofNat (number (first :: rest))]
  | continuation _ => []

/-- Whether a piece is decoded as what it stands for. -/
def isRead : Piece → Bool
  | pair _ _ _ _ => false
  | continuation .lineSeparator | continuation .paragraphSeparator => false
  | _ => true

/-- The text that a piece of a literal is decoded as: halves of a pair stay apart, and a
separator stays in the text. -/
def reading : Piece → Text
  | pair high low _ _ => [CodePoint.ofNat high.number, CodePoint.ofNat low.number]
  | continuation .lineSeparator => LineEnd.lineSeparator.text
  | continuation .paragraphSeparator => LineEnd.paragraphSeparator.text
  | piece => piece.meaning

/-- The text of a piece. -/
def spelled (piece : Piece) : Text :=
  piece.nodes.flatMap Prod.snd

/-- A piece that a string of a document can have as well. -/
def InDocument : Piece → Prop
  | fragment t => ∀ c ∈ t, c ≠ CodePoint.ofChar '"' ∧ c ≠ CodePoint.ofChar '\\' ∧ 0x20 ≤ c.val
  | character c _ => c ∈ Text.ofString "\"\\/bfnrt"
  | quad _ _ | pair _ _ _ _ => True
  | byte _ _ | braced _ _ _ | continuation _ => False

end Piece

/-- The text that a spelling stands for. -/
def meaning (pieces : List Piece) : Text :=
  pieces.flatMap Piece.meaning

/-- The text that the pieces of a literal are decoded as. -/
def reading (pieces : List Piece) : Text :=
  pieces.flatMap Piece.reading

/-- A string literal is written by some pieces, in order. -/
def SpelledBy (pieces : List Piece) (c : Syntax.Cursor) : Prop :=
  c.kind = .string ∧
    c.namedChildren.map (fun part => (part.kind, part.text)) = pieces.flatMap Piece.nodes

instance (pieces : List Piece) (c : Syntax.Cursor) : Decidable (SpelledBy pieces c) :=
  inferInstanceAs (Decidable (_ ∧ _))

/-! ## Reading digits -/

theorem HexDigit.hexValue?_point (d : HexDigit) : d.point.hexValue? = some d.value.val := by
  have hall : ∀ (value : Fin 16) (capital : Bool),
      (HexDigit.point ⟨value, capital⟩).hexValue? = some value.val := by decide
  exact hall d.value d.capital

theorem foldlM_digitText (digits : List HexDigit) (total : Nat) :
    (digitText digits).foldlM (fun value c => (16 * value + ·) <$> c.hexValue?) total =
      some (digits.foldl (fun total d => 16 * total + d.value.val) total) := by
  induction digits generalizing total with
  | nil => rfl
  | cons d rest ih =>
      rw [digitText, List.map_cons, List.foldlM_cons, d.hexValue?_point, List.foldl_cons]
      exact ih _

theorem hexNumber?_digitText {digits : List HexDigit} (h : digits ≠ []) :
    Text.hexNumber? (digitText digits) = some (number digits) := by
  cases digits with
  | nil => exact absurd rfl h
  | cons d rest => exact foldlM_digitText (d :: rest) 0

theorem foldl_lt (digits : List HexDigit) (total : Nat) :
    digits.foldl (fun total d => 16 * total + d.value.val) total <
      16 ^ digits.length * (total + 1) := by
  induction digits generalizing total with
  | nil => simp
  | cons d rest ih =>
      have hstep : 16 * total + d.value.val + 1 ≤ 16 * (total + 1) := by omega
      calc rest.foldl (fun total d => 16 * total + d.value.val) (16 * total + d.value.val)
          < 16 ^ rest.length * (16 * total + d.value.val + 1) := ih _
        _ ≤ 16 ^ rest.length * (16 * (total + 1)) := Nat.mul_le_mul_left _ hstep
        _ = 16 ^ (d :: rest).length * (total + 1) := by
            rw [List.length_cons, Nat.pow_succ, Nat.mul_assoc]

theorem number_lt (digits : List HexDigit) : number digits < 16 ^ digits.length := by
  have h := foldl_lt digits 0
  rwa [Nat.zero_add, Nat.mul_one] at h

theorem Quad.number_lt (q : Quad) : q.number < 0x10000 := by
  have h := Spelling.number_lt q.digits
  rwa [show 16 ^ q.digits.length = 0x10000 from by simp [Quad.digits]] at h

theorem IsScalar.lt {n : Nat} (h : IsScalar n) : n < 0x110000 := by
  unfold IsScalar at h
  omega

end Spelling

/-! ## Decoding a literal -/

namespace Syntax.Escape

open Spelling

theorem numbered?_digitText {digits : List HexDigit} (hne : digits ≠ [])
    (hlt : number digits < 0x110000) :
    numbered? (digitText digits) = some (CodePoint.ofNat (number digits)) := by
  have hpoint : CodePoint.ofNat (number digits) = ⟨number digits, hlt⟩ :=
    Fin.ext (Nat.mod_eq_of_lt hlt)
  rw [numbered?, hexNumber?_digitText hne, hpoint]
  exact dif_pos hlt

/-- A letter that begins no longer escape stands for a control character or for itself. -/
theorem decode_letter {c : CodePoint} (h : c ∉ reserved) :
    decode [CodePoint.ofChar '\\', c] = [(Assoc.get? c controlLetters).getD c] := by
  by_cases hletter : c ∈ controlLetters.map Prod.fst
  · simp only [controlLetters, List.map_cons, List.map_nil, List.mem_cons, List.not_mem_nil,
      or_false] at hletter
    rcases hletter with rfl | rfl | rfl | rfl | rfl | rfl | rfl <;> rfl
  · simp only [controlLetters, List.map_cons, List.map_nil, List.mem_cons, List.not_mem_nil,
      or_false, not_or] at hletter
    have hnone : Assoc.get? c controlLetters = none := by
      simp [controlLetters, Assoc.get?, hletter, eq_comm]
    have hsimple : simple? c = none := by simp [simple?, hletter]
    have hunicode : c ≠ CodePoint.ofChar 'u' := fun heq => h (heq ▸ by decide)
    have hreturn : c ≠ CodePoint.ofChar '\r' := fun heq => h (heq ▸ by decide)
    have hfeed : c ≠ CodePoint.ofChar '\n' := fun heq => h (heq ▸ by decide)
    rw [hnone, decode]
    simp [hsimple, hunicode, hreturn, hfeed]

theorem decode_byte (first second : HexDigit) :
    decode (Text.ofString "\\x" ++ digitText [first, second]) =
      [CodePoint.ofNat (number [first, second])] := by
  have hlt : number [first, second] < 0x110000 := lt_trans (number_lt _) (by simp)
  have hnumber := numbered?_digitText (List.cons_ne_nil _ _) hlt
  rw [decode, show (Text.ofString "\\x" ++ digitText [first, second]).drop 1 =
    CodePoint.ofChar 'x' :: digitText [first, second] from rfl]
  simp only [digitText, List.map_cons, List.map_nil] at hnumber ⊢
  simp [hnumber]

/-- A number of four digits is decoded by itself, also if it is half of a pair. -/
theorem decode_quad (q : Quad) :
    decode (Text.ofString "\\u" ++ digitText q.digits) = [CodePoint.ofNat q.number] := by
  have hlt : number q.digits < 0x110000 := lt_trans q.number_lt (by simp)
  have hnumber := numbered?_digitText (List.cons_ne_nil _ _) hlt
  have hopen : ∀ d : HexDigit, (d.point.val == 0x7b) = false := by
    have hall : ∀ (value : Fin 16) (capital : Bool),
        ((HexDigit.point ⟨value, capital⟩).val == 0x7b) = false := by decide
    exact fun d => hall d.value d.capital
  rw [decode, show (Text.ofString "\\u" ++ digitText q.digits).drop 1 =
    CodePoint.ofChar 'u' :: digitText q.digits from rfl]
  simp only [Quad.digits, digitText, List.map_cons, List.map_nil] at hnumber ⊢
  simp [hnumber, hopen, Quad.number, Quad.digits]

theorem decode_braced {first : HexDigit} {rest : List HexDigit}
    (h : IsScalar (number (first :: rest))) :
    decode (Text.ofString "\\u\x7b" ++ digitText (first :: rest) ++ Text.ofString "\x7d") =
      [CodePoint.ofNat (number (first :: rest))] := by
  have hnumber := numbered?_digitText (List.cons_ne_nil first rest) h.lt
  rw [decode, show (Text.ofString "\\u\x7b" ++ digitText (first :: rest) ++
    Text.ofString "\x7d").drop 1 = CodePoint.ofChar 'u' :: CodePoint.ofNat 0x7b ::
      (digitText (first :: rest) ++ [CodePoint.ofNat 0x7d]) from rfl]
  have hletter : CodePoint.ofChar 'u' ≠ CodePoint.ofChar 'x' := by decide
  have hbrace : (CodePoint.ofNat 0x7b).val = 0x7b := rfl
  simp [hnumber, hletter, hbrace]

/-- A backslash hides a line end made of a line feed or carriage return, and no other. -/
theorem decode_continuation (lineEnd : LineEnd) :
    decode (CodePoint.ofChar '\\' :: lineEnd.text) =
      (Piece.continuation lineEnd).reading := by
  cases lineEnd <;> rfl

end Syntax.Escape

namespace Spelling

open Syntax

/-- The value of a part of a literal, from its kind and its text. -/
def partValue (part : Kind × Text) : Text :=
  match part.1 with
  | .escapeSequence => Escape.decode part.2
  | _ => part.2

theorem pieceValue_eq (c : Cursor) : c.pieceValue = partValue (c.kind, c.text) := by
  unfold Cursor.pieceValue partValue
  cases c.kind <;> rfl

theorem partValue_nodes (piece : Piece) : piece.nodes.flatMap partValue = piece.reading := by
  cases piece with
  | fragment t => simp [Piece.nodes, partValue, Piece.reading, Piece.meaning]
  | character c hfree =>
      simp [Piece.nodes, partValue, Piece.reading, Piece.meaning, Escape.decode_letter hfree]
  | byte first second =>
      simp [Piece.nodes, partValue, Piece.reading, Piece.meaning, Escape.decode_byte]
  | quad q hscalar =>
      simp [Piece.nodes, partValue, Piece.reading, Piece.meaning, Escape.decode_quad]
  | pair high low hhigh hlow =>
      simp [Piece.nodes, partValue, Piece.reading, Escape.decode_quad]
  | braced first rest hscalar =>
      simp only [Piece.nodes, partValue, Piece.reading, Piece.meaning, List.flatMap_singleton]
      exact Escape.decode_braced hscalar
  | continuation lineEnd =>
      simp [Piece.nodes, partValue, Escape.decode_continuation]

/-- The value of a literal is put together from what its pieces are decoded as. -/
theorem stringValue?_of_spelledBy {pieces : List Piece} {c : Cursor} (h : SpelledBy pieces c) :
    c.stringValue? = some (reading pieces) := by
  obtain ⟨hkind, hparts⟩ := h
  have hvalue : c.namedChildren.flatMap Cursor.pieceValue = reading pieces := calc
    c.namedChildren.flatMap Cursor.pieceValue
      = (c.namedChildren.map fun part => (part.kind, part.text)).flatMap partValue := by
        rw [List.flatMap_map]
        exact List.flatMap_congr fun part _ => pieceValue_eq part
    _ = pieces.flatMap fun piece => piece.nodes.flatMap partValue := by
        rw [hparts, List.flatMap_assoc]
    _ = reading pieces := List.flatMap_congr fun piece _ => partValue_nodes piece
  rw [Cursor.stringValue?, hkind]
  exact congrArg some hvalue

/-! ## Where decoding goes wrong -/

theorem Piece.reading_of_isRead {piece : Piece} (h : piece.isRead = true) :
    piece.reading = piece.meaning := by
  cases piece with
  | fragment _ | character _ _ | byte _ _ | quad _ _ | braced _ _ _ => rfl
  | pair _ _ _ _ => simp [isRead] at h
  | continuation lineEnd =>
      cases lineEnd with
      | lineFeed | carriageReturn | carriageReturnLineFeed => rfl
      | lineSeparator | paragraphSeparator => simp [isRead] at h

/-- What is not decoded as it should be is decoded as one code point too many. -/
theorem Piece.length_reading (piece : Piece) :
    piece.reading.length = piece.meaning.length + if piece.isRead then 0 else 1 := by
  cases hread : piece.isRead with
  | true => simp [reading_of_isRead hread]
  | false =>
      cases piece with
      | fragment _ | character _ _ | byte _ _ | quad _ _ | braced _ _ _ => simp [isRead] at hread
      | pair _ _ _ _ => simp [reading, meaning]
      | continuation lineEnd =>
          cases lineEnd with
          | lineFeed | carriageReturn | carriageReturnLineFeed => simp [isRead] at hread
          | lineSeparator | paragraphSeparator => simp [reading, meaning, LineEnd.text]

theorem length_reading (pieces : List Piece) :
    (reading pieces).length =
      (meaning pieces).length + pieces.countP fun piece => !piece.isRead := by
  induction pieces with
  | nil => rfl
  | cons piece rest ih =>
      have hpiece := piece.length_reading
      simp only [reading, meaning, List.flatMap_cons, List.length_append] at ih ⊢
      rw [ih, hpiece, List.countP_cons]
      cases piece.isRead <;> simp <;> omega

theorem reading_eq_meaning_iff (pieces : List Piece) :
    reading pieces = meaning pieces ↔ ∀ piece ∈ pieces, piece.isRead = true := by
  constructor
  · intro heq piece hpiece
    have hlength := length_reading pieces
    rw [heq] at hlength
    have hcount : pieces.countP (fun piece => !piece.isRead) = 0 := by omega
    simpa using List.countP_eq_zero.mp hcount piece hpiece
  · intro hread
    exact List.flatMap_congr fun piece hpiece => Piece.reading_of_isRead (hread piece hpiece)

/-! ## The same text in a document -/

/-- The code point that ends a string of a document. -/
def quote : CodePoint := CodePoint.ofChar '"'

section Document

variable {opening rest tail left : Text}

theorem hexQuad?_digitText (q : Quad) (rest : Text) :
    Json.hexQuad? (digitText q.digits ++ rest) = some q.number := by
  have hlength : (digitText q.digits).length = 4 := by simp [digitText, Quad.digits]
  have hnumber : Text.hexNumber? (digitText q.digits) = some q.number :=
    hexNumber?_digitText (List.cons_ne_nil _ _)
  unfold Json.hexQuad?
  rw [List.take_left' hlength, hlength, if_neg (by omega), hnumber]

/-- A numbered escape is read as far as it says itself. -/
theorem readString_unicode {after : Text} {point : CodePoint} {taken : Nat}
    (hescape : Json.readUnicodeEscape (CodePoint.ofChar 'u' :: after) = .ok (point, taken))
    (h : Json.readString opening (after.drop taken) = .ok (tail, left)) :
    Json.readString opening (Text.ofString "\\u" ++ after) = .ok (point :: tail, left) := by
  rw [show Text.ofString "\\u" ++ after = CodePoint.ofChar '\\' :: CodePoint.ofChar 'u' :: after
    from rfl, Json.readString.eq_def]
  dsimp only
  rw [if_neg (by decide), if_pos rfl, if_pos rfl, hescape]
  dsimp only
  rw [h]

theorem readUnicodeEscape_quad {q : Quad} (hscalar : IsScalar q.number) (hrest : rest ≠ []) :
    Json.readUnicodeEscape (CodePoint.ofChar 'u' :: (digitText q.digits ++ rest)) =
      .ok (CodePoint.ofNat q.number, 4) := by
  have hlength : (digitText q.digits).length = 4 := by simp [digitText, Quad.digits]
  have hval : (CodePoint.ofNat q.number).val = q.number := Nat.mod_eq_of_lt hscalar.lt
  have hhigh : (CodePoint.ofNat q.number).isHighSurrogate = false := by
    unfold IsScalar at hscalar
    simp only [CodePoint.isHighSurrogate, hval, Bool.and_eq_false_iff, decide_eq_false_iff_not]
    omega
  unfold Json.readUnicodeEscape
  simp only [List.drop_succ_cons, List.drop_zero, hexQuad?_digitText, List.drop_left' hlength,
    hhigh, Bool.false_and, List.isEmpty_iff, hrest, if_false, Bool.false_eq_true]

theorem readUnicodeEscape_pair {high low : Quad}
    (hhigh : 0xd800 ≤ high.number ∧ high.number ≤ 0xdbff)
    (hlow : 0xdc00 ≤ low.number ∧ low.number ≤ 0xdfff) (hrest : rest ≠ []) :
    Json.readUnicodeEscape (CodePoint.ofChar 'u' :: (digitText high.digits ++
        (Text.ofString "\\u" ++ (digitText low.digits ++ rest)))) =
      .ok (CodePoint.ofNat (0x10000 + (high.number - 0xd800) * 0x400 + (low.number - 0xdc00)),
        10) := by
  have hlength : ∀ q : Quad, (digitText q.digits).length = 4 := fun q => by
    simp [digitText, Quad.digits]
  have hval : ∀ q : Quad, (CodePoint.ofNat q.number).val = q.number := fun q =>
    Nat.mod_eq_of_lt (lt_trans q.number_lt (by simp))
  have hfirst : (CodePoint.ofNat high.number).isHighSurrogate = true := by
    simp only [CodePoint.isHighSurrogate, hval, Bool.and_eq_true, decide_eq_true_eq]
    exact hhigh
  have hsecond : (CodePoint.ofNat low.number).isLowSurrogate = true := by
    simp only [CodePoint.isLowSurrogate, hval, Bool.and_eq_true, decide_eq_true_eq]
    exact hlow
  have hsix : (Text.ofString "\\u" ++ (digitText low.digits ++ rest)).drop 6 = rest := by
    rw [← List.append_assoc, List.drop_left']
    simp [hlength, Text.ofString]
  have htwo : (Text.ofString "\\u" ++ (digitText low.digits ++ rest)).drop 2 =
      digitText low.digits ++ rest := rfl
  have hmark : (Text.ofString "\\u").isPrefixOf
      (Text.ofString "\\u" ++ (digitText low.digits ++ rest)) = true := by
    simp [List.isPrefixOf_iff_prefix]
  have hmore : (Text.ofString "\\u" ++ (digitText low.digits ++ rest)).isEmpty = false := rfl
  unfold Json.readUnicodeEscape
  simp only [List.drop_succ_cons, List.drop_zero, hexQuad?_digitText,
    List.drop_left' (hlength high)]
  rw [hmore, hsix, hfirst, hmark]
  simp [htwo, hexQuad?_digitText, hsecond, hrest, Json.joinSurrogates]

theorem readString_fragment {t : Text} (ht : (Piece.fragment t).InDocument)
    (h : Json.readString opening rest = .ok (tail, left)) :
    Json.readString opening (t ++ rest) = .ok (t ++ tail, left) := by
  induction t with
  | nil => exact h
  | cons c t ih =>
      obtain ⟨hquote, hslash, hcontrol⟩ := ht c List.mem_cons_self
      have hmore := ih fun d hd => ht d (List.mem_cons_of_mem _ hd)
      rw [List.cons_append, Json.readString.eq_def]
      dsimp only
      rw [if_neg hquote, if_neg hslash, if_neg (by omega), hmore]
      rfl

/-- Each piece that a document can have is read as what it stands for. -/
theorem readString_piece {piece : Piece} (hpiece : piece.InDocument) (hrest : rest ≠ [])
    (h : Json.readString opening rest = .ok (tail, left)) :
    Json.readString opening (piece.spelled ++ rest) = .ok (piece.meaning ++ tail, left) := by
  cases piece with
  | fragment t =>
      simp only [Piece.spelled, Piece.nodes, List.flatMap_singleton]
      exact readString_fragment hpiece h
  | character c hfree =>
      have hletter : c ≠ CodePoint.ofChar 'u' := fun heq => hfree (heq ▸ by decide)
      have hpoint : Json.simpleEscape? c = some ((Assoc.get? c controlLetters).getD c) := by
        have hmem : c ∈ List.map CodePoint.ofChar ['"', '\\', '/', 'b', 'f', 'n', 'r', 't'] :=
          hpiece
        simp only [List.map_cons, List.map_nil, List.mem_cons, List.not_mem_nil, or_false] at hmem
        rcases hmem with rfl | rfl | rfl | rfl | rfl | rfl | rfl | rfl <;> rfl
      exact Json.readString_escape hletter hpoint h
  | quad q hscalar =>
      simp only [Piece.spelled, Piece.nodes, List.flatMap_singleton, List.append_assoc]
      have hlength : (digitText q.digits).length = 4 := by simp [digitText, Quad.digits]
      refine readString_unicode (readUnicodeEscape_quad hscalar hrest) ?_
      rwa [List.drop_left' hlength]
  | pair high low hhigh hlow =>
      simp only [Piece.spelled, Piece.nodes, List.flatMap_cons, List.flatMap_nil, List.append_nil,
        List.append_assoc]
      have hlength :
          (digitText high.digits ++ (Text.ofString "\\u" ++ digitText low.digits)).length =
            10 := by
        simp [digitText, Quad.digits, Text.ofString]
      refine readString_unicode (readUnicodeEscape_pair hhigh hlow hrest) ?_
      rwa [← List.append_assoc (Text.ofString "\\u"), ← List.append_assoc, List.drop_left' hlength]
  | byte _ _ | braced _ _ _ | continuation _ => exact hpiece.elim

/-- A string of a document is read as the text that its spelling stands for. -/
theorem readString_spelled {pieces : List Piece} (h : ∀ piece ∈ pieces, piece.InDocument) :
    Json.readString opening (pieces.flatMap Piece.spelled ++ quote :: rest) =
      .ok (meaning pieces, rest) := by
  induction pieces with
  | nil =>
      rw [List.flatMap_nil, List.nil_append, Json.readString.eq_def]
      rfl
  | cons piece more ih =>
      have hmore := ih fun other hother => h other (List.mem_cons_of_mem _ hother)
      rw [List.flatMap_cons, List.append_assoc]
      exact readString_piece (h piece List.mem_cons_self) (by simp) hmore

end Document

/-! ## Keys -/

theorem qualify_injective (space : Option Text) : Function.Injective (Key.qualify space) := by
  intro first second h
  cases space with
  | none => exact h
  | some name =>
      simp only [Key.qualify] at h
      split at h
      · exact h
      · exact List.cons_injective (List.append_cancel_left h)

theorem recordKey_injective {trace : Trace} {space : Option Text} {span : SourceSpan}
    {first second : Text}
    (h : trace.recordKey first space span = trace.recordKey second space span) :
    first = second := by
  have husages := List.append_cancel_left (congrArg Trace.usages h)
  simpa using husages

theorem recordCall_of_stringValue? {call c : Cursor} {value : Text}
    (hargument : call.argumentNodes.head? = some c) (hvalue : c.stringValue? = some value)
    (trace : Trace) (config : HookConfig) (space : Option Text) :
    trace.recordCall config space call =
      trace.recordKey (Key.qualify space value) space c.span := by
  unfold Trace.recordCall
  split
  · rename_i hnone
    rw [hnone] at hargument
    simp at hargument
  · rename_i argument rest hsome
    rw [hsome, List.head?_cons, Option.some.injEq] at hargument
    subst hargument
    simp [hvalue]

/-- A literal has the text that it spells as its value, and a call with it is recorded under the key
of that text, exactly if no piece of it is a surrogate pair or a line continued after a separator.
A document that spells the text in any way has the text as its name. -/
theorem stringValue?_eq_meaning_iff {pieces : List Piece} {c : Cursor}
    (h : SpelledBy pieces c) :
    (c.stringValue? = some (meaning pieces) ↔ ∀ piece ∈ pieces, piece.isRead = true) ∧
      (∀ (call : Cursor) (trace : Trace) (config : HookConfig) (space : Option Text),
        call.argumentNodes.head? = some c →
          (trace.recordCall config space call =
              trace.recordKey (Key.qualify space (meaning pieces)) space c.span ↔
            ∀ piece ∈ pieces, piece.isRead = true)) ∧
      ∀ (written : List Piece) (opening rest : Text), (∀ piece ∈ written, piece.InDocument) →
        meaning written = meaning pieces →
          Json.readString opening (written.flatMap Piece.spelled ++ quote :: rest) =
            .ok (meaning pieces, rest) := by
  have hvalue := stringValue?_of_spelledBy h
  refine ⟨?_, fun call trace config space hargument => ?_,
    fun written opening rest hwritten hmeaning => ?_⟩
  · rw [hvalue, Option.some.injEq]
    exact reading_eq_meaning_iff pieces
  · rw [recordCall_of_stringValue? hargument hvalue, ← reading_eq_meaning_iff]
    exact ⟨fun heq => qualify_injective space (recordKey_injective heq), fun heq => by rw [heq]⟩
  · rw [← hmeaning]
    exact readString_spelled hwritten

/-- A file of calls with one literal each, on lines of their own: `t('\ud83d\ude00');`, a call with
a line separator behind a backslash between `a` and `b`, and `t('\x41\u{1F600}');`. -/
def spelledKeys : SourceUnit :=
  let node (kind : Kind) (start stop : Nat) (field : Option Field) (children : List Node) : Node :=
    .mk ⟨kind, true, false, start, stop, if start < 19 then ⟨0, start⟩
      else if start < 32 then ⟨1, start - 19⟩ else ⟨2, start - 32⟩, field⟩ children
  let call (start stop : Nat) (parts : List Node) : Node :=
    node (.other "expression_statement") start stop none
      [node .callExpression start (stop - 1) none
        [node .identifier start (start + 1) (some .function) [],
          node .arguments (start + 1) (stop - 1) (some .arguments)
            [node .string (start + 2) (stop - 2) none parts]]]
  { path := "t.ts"
    source := "t('\\ud83d\\ude00');\nt('a\\\u2028b');\nt('\\x41\\u\x7b1F600\x7d');".toUTF8.data
    root := node .program 0 51 none
      [call 0 18 [node .escapeSequence 3 9 none [], node .escapeSequence 9 15 none []],
        call 19 31 [node .stringFragment 22 23 none [], node .escapeSequence 23 27 none [],
          node .stringFragment 27 28 none []],
        call 32 51 [node .escapeSequence 35 39 none [], node .escapeSequence 39 48 none []]] }

/-- The character U+1F600 by its surrogate pair. -/
def pairedFace : Piece :=
  .pair ⟨⟨13, false⟩, ⟨8, false⟩, ⟨3, false⟩, ⟨13, false⟩⟩
    ⟨⟨13, false⟩, ⟨14, false⟩, ⟨0, false⟩, ⟨0, false⟩⟩ (by decide) (by decide)

/-- The character `A` by two digits and U+1F600 by its number in braces. -/
def numberedFace : List Piece :=
  [.byte ⟨4, false⟩ ⟨1, false⟩,
    .braced ⟨1, false⟩ [⟨15, true⟩, ⟨6, false⟩, ⟨0, false⟩, ⟨0, false⟩] (by decide)]

theorem stringValue?_eq_meaning_iff_spelledKeys :
    meaning numberedFace = [CodePoint.ofNat 0x41, CodePoint.ofNat 0x1f600] ∧
      ∃ c ∈ spelledKeys.cursors, SpelledBy numberedFace c ∧
        c.stringValue? = some (meaning numberedFace) := by
  refine ⟨by decide, ?_⟩
  obtain ⟨c, hc, hspelled⟩ : ∃ c ∈ spelledKeys.cursors, SpelledBy numberedFace c := by
    decide +kernel
  have hread : ∀ piece ∈ numberedFace, piece.isRead = true := by simp [numberedFace, Piece.isRead]
  exact ⟨c, hc, hspelled, (stringValue?_eq_meaning_iff hspelled).1.mpr hread⟩

/-- A key by its surrogate pair is two halves in a literal and one character in a document, and a
line continued after a line separator keeps the separator. -/
theorem stringValue?_ne_meaning :
    (∃ c ∈ spelledKeys.cursors, SpelledBy [pairedFace] c ∧
      meaning [pairedFace] = [CodePoint.ofNat 0x1f600] ∧
      c.stringValue? = some [CodePoint.ofNat 0xd83d, CodePoint.ofNat 0xde00]) ∧
    ∃ c ∈ spelledKeys.cursors,
      SpelledBy [.fragment "a", .continuation .lineSeparator, .fragment "b"] c ∧
      meaning [.fragment "a", .continuation .lineSeparator, .fragment "b"] = Text.ofString "ab" ∧
      c.stringValue? =
        some [CodePoint.ofChar 'a', CodePoint.ofNat 0x2028, CodePoint.ofChar 'b'] := by
  constructor
  · decide +kernel
  · decide +kernel

end Spelling

end MessageKeys
