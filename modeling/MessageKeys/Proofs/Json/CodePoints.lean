import MessageKeys.Proofs.Json.Tokens

/-!
# The code points of a written value

Everything the writer puts down around the texts of a value is plain: a printable ASCII character
or a newline.  So a code point that is not plain occurs in a written value exactly if it occurs in
one of its names and strings and is no control character (`mem_prettyOnto`): those are escaped.
-/

namespace MessageKeys.Json

mutual

/-- The names and strings of a value. -/
def texts : Json → List Text
  | .str s => [s]
  | .arr items => itemTexts items
  | .obj members => memberTexts members
  | _ => []

/-- The names and strings of the items of an array. -/
def itemTexts : List Json → List Text
  | [] => []
  | item :: items => texts item ++ itemTexts items

/-- The names and strings of the members of an object. -/
def memberTexts : List (Text × Json) → List Text
  | [] => []
  | (name, value) :: members => name :: (texts value ++ memberTexts members)

end

/-- A newline or a printable ASCII character. -/
def isPlain (c : CodePoint) : Bool :=
  c == CodePoint.ofChar '\n' || (0x20 ≤ c.val && c.val < 0x7f)

/-- A text of newlines and printable ASCII characters. -/
def Plain (t : Text) : Prop :=
  ∀ c ∈ t, isPlain c = true

theorem plain_of_all {t : Text} (h : t.all isPlain = true) : Plain t :=
  List.all_eq_true.mp h

theorem Plain.append {front back : Text} (hfront : Plain front) (hback : Plain back) :
    Plain (front ++ back) := by
  intro c hc
  rcases List.mem_append.mp hc with hc | hc
  · exact hfront c hc
  · exact hback c hc

theorem plain_of_isDigit {digits : Text} (h : ∀ c ∈ digits, c.isDigit = true) : Plain digits := by
  intro c hc
  have hdigit := h c hc
  simp only [CodePoint.isDigit, Bool.and_eq_true, decide_eq_true_eq] at hdigit
  simp only [isPlain, Bool.or_eq_true, Bool.and_eq_true, decide_eq_true_eq]
  omega

theorem plain_decimal (n : ℕ) : Plain (Numeral.decimal n) :=
  plain_of_isDigit (Numeral.all_isDigit_decimal n)

theorem plain_zeros (count : ℕ) : Plain (zeros count) :=
  plain_of_isDigit isDigit_of_mem_zeros

theorem plain_signText (negative : Bool) : Plain (signText negative) := by
  cases negative <;> exact plain_of_all rfl

theorem Plain.of_sublist {t part : Text} (h : Plain t) (hpart : part.Sublist t) : Plain part :=
  fun c hc => h c (hpart.subset hc)

theorem plain_layout (format : RealFormat) (decimal : Decimal) : Plain (layout format decimal) := by
  have hdigits := plain_decimal decimal.digits
  have hmarks : ∀ mark ∈ ["0.", ".0", ".", "e-", "e+"], Plain (Text.ofString mark) := by
    intro mark hmark
    simp only [List.mem_cons, List.not_mem_nil, or_false] at hmark
    rcases hmark with rfl | rfl | rfl | rfl | rfl <;> exact plain_of_all rfl
  have hfirst := hdigits.of_sublist (List.take_sublist 1 _)
  have hothers := (hmarks "." (by simp)).append (hdigits.of_sublist (List.drop_sublist 1 _))
  unfold layout
  dsimp only
  split_ifs
  · exact ((hmarks "0." (by simp)).append (plain_zeros _)).append hdigits
  · exact (hdigits.append (plain_zeros _)).append (hmarks ".0" (by simp))
  · exact ((hdigits.of_sublist (List.take_sublist _ _)).append (hmarks "." (by simp))).append
      (hdigits.of_sublist (List.drop_sublist _ _))
  -- the mantissa has a point or not, and the exponent has either sign
  · rw [List.append_nil]
    exact ((hfirst.append (hmarks "e-" (by simp))).append (plain_zeros _)).append (plain_decimal _)
  · rw [List.append_nil]
    exact ((hfirst.append (hmarks "e+" (by simp))).append (plain_zeros _)).append (plain_decimal _)
  · exact (((hfirst.append hothers).append (hmarks "e-" (by simp))).append (plain_zeros _)).append
      (plain_decimal _)
  · exact (((hfirst.append hothers).append (hmarks "e+" (by simp))).append (plain_zeros _)).append
      (plain_decimal _)

theorem plain_realText (x : Binary64) : Plain (realText x) := by
  unfold realText
  split
  · exact plain_of_all rfl
  · split <;> exact plain_of_all rfl
  · refine (plain_signText _).append ?_
    split
    · exact plain_of_all rfl
    · exact plain_layout _ _

theorem plain_hex (width n : ℕ) : Plain (Numeral.hex width n) := by
  induction width generalizing n with
  | zero => simp [Plain, Numeral.hex]
  | succ width ih =>
      rw [Numeral.hex]
      refine (ih (n / 16)).append fun c hc => ?_
      have hdigit : ∀ d < 16, isPlain (Numeral.hexDigit d) = true := by decide
      rw [List.mem_singleton.mp hc]
      exact hdigit _ (Nat.mod_lt _ (by norm_num))

theorem plain_newline (level : ℕ) : Plain (newline level) := by
  intro c hc
  rcases List.mem_cons.mp hc with rfl | hc
  · rfl
  · rw [List.eq_of_mem_replicate hc]
    rfl

/-! ## Code points that are not plain -/

section

variable {c : CodePoint}

theorem mem_plain_append (hc : isPlain c = false) {front : Text} (hfront : Plain front)
    {rest : Text} : c ∈ front ++ rest ↔ c ∈ rest := by
  rw [List.mem_append]
  refine or_iff_right fun hmem => ?_
  rw [hfront c hmem] at hc
  contradiction

/-- Only a code point that is written as it is can be one that is not plain. -/
theorem mem_escaped (hc : isPlain c = false) {d : CodePoint} :
    c ∈ escaped d ↔ 0x20 ≤ c.val ∧ c = d := by
  have hplain : ∀ {t}, Plain t → isPlain d = true ∨ d.val < 0x20 →
      (c ∈ t ↔ 0x20 ≤ c.val ∧ c = d) := by
    intro t ht hd
    constructor
    · intro hmem
      rw [ht c hmem] at hc
      contradiction
    · rintro ⟨hle, rfl⟩
      rcases hd with hd | hd
      · rw [hd] at hc
        contradiction
      · omega
  unfold escaped
  split_ifs with hquote hslash hnewline hreturn htab hback hfeed hcontrol
  · exact hplain (plain_of_all rfl)
      (Or.inl (hquote ▸ rfl))
  · exact hplain (plain_of_all rfl)
      (Or.inl (hslash ▸ rfl))
  · exact hplain (plain_of_all rfl)
      (Or.inl (hnewline ▸ rfl))
  · exact hplain (plain_of_all rfl)
      (Or.inr (hreturn ▸ by decide))
  · exact hplain (plain_of_all rfl)
      (Or.inr (htab ▸ by decide))
  · exact hplain (plain_of_all rfl) (Or.inr (by omega))
  · exact hplain (plain_of_all rfl) (Or.inr (by omega))
  · exact hplain (Plain.append (plain_of_all rfl) (plain_hex 4 d.val)) (Or.inr hcontrol)
  · rw [List.mem_singleton]
    refine ⟨?_, And.right⟩
    rintro rfl
    exact ⟨by omega, rfl⟩

theorem mem_quoted_append (hc : isPlain c = false) {s rest : Text} :
    c ∈ quoted s ++ rest ↔ (0x20 ≤ c.val ∧ c ∈ s) ∨ c ∈ rest := by
  have hquote : Plain (Text.ofString "\"") := plain_of_all rfl
  unfold quoted
  rw [List.append_assoc, List.append_assoc, mem_plain_append hc hquote, List.mem_append,
    mem_plain_append hc hquote, List.mem_flatMap]
  simp only [mem_escaped hc]
  refine or_congr_left ⟨?_, fun ⟨hle, hmem⟩ => ⟨c, hmem, hle, rfl⟩⟩
  rintro ⟨d, hmem, hle, rfl⟩
  exact ⟨hle, hmem⟩

mutual

/-- A code point that is not plain stands in a written value exactly if it stands in one of its
texts and is not escaped there. -/
theorem mem_prettyOnto (hc : isPlain c = false) (level : ℕ) (rest : Text) : ∀ value,
    c ∈ prettyOnto level rest value ↔ (0x20 ≤ c.val ∧ ∃ s ∈ texts value, c ∈ s) ∨ c ∈ rest
  | .null => by
      rw [prettyOnto, mem_plain_append hc (plain_of_all rfl)]
      simp [texts]
  | .bool b => by
      rw [prettyOnto, mem_plain_append hc (by cases b <;> exact plain_of_all rfl)]
      simp [texts]
  | .int n => by
      rw [prettyOnto,
        mem_plain_append hc (signed_eq n ▸ (plain_signText _).append (plain_decimal _))]
      simp [texts]
  | .real x => by
      rw [prettyOnto, mem_plain_append hc (plain_realText x)]
      simp [texts]
  | .str s => by
      rw [prettyOnto, mem_quoted_append hc]
      simp [texts]
  | .arr [] => by
      rw [prettyOnto, mem_plain_append hc (plain_of_all rfl)]
      simp [texts, itemTexts]
  | .arr (item :: items) => by
      rw [prettyOnto, mem_plain_append hc (plain_of_all rfl),
        mem_plain_append hc (plain_newline _), mem_prettyOnto hc, mem_prettyItems hc,
        mem_plain_append hc (plain_newline _),
        mem_plain_append hc (plain_of_all rfl)]
      simp only [texts, itemTexts, List.mem_append]
      grind
  | .obj [] => by
      rw [prettyOnto, mem_plain_append hc (plain_of_all rfl)]
      simp [texts, memberTexts]
  | .obj ((name, value) :: members) => by
      rw [prettyOnto, mem_plain_append hc (plain_of_all rfl),
        mem_plain_append hc (plain_newline _), mem_quoted_append hc,
        mem_plain_append hc (plain_of_all rfl),
        mem_prettyOnto hc, mem_prettyMembers hc, mem_plain_append hc (plain_newline _),
        mem_plain_append hc (plain_of_all rfl)]
      simp only [texts, memberTexts, List.mem_append, List.mem_cons]
      grind

theorem mem_prettyItems (hc : isPlain c = false) (level : ℕ) (rest : Text) : ∀ items,
    c ∈ prettyItems level rest items ↔ (0x20 ≤ c.val ∧ ∃ s ∈ itemTexts items, c ∈ s) ∨ c ∈ rest
  | [] => by simp [prettyItems, itemTexts]
  | item :: items => by
      rw [prettyItems, mem_plain_append hc (plain_of_all rfl),
        mem_plain_append hc (plain_newline _), mem_prettyOnto hc, mem_prettyItems hc]
      simp only [itemTexts, List.mem_append]
      grind

theorem mem_prettyMembers (hc : isPlain c = false) (level : ℕ) (rest : Text) : ∀ members,
    c ∈ prettyMembers level rest members ↔
      (0x20 ≤ c.val ∧ ∃ s ∈ memberTexts members, c ∈ s) ∨ c ∈ rest
  | [] => by simp [prettyMembers, memberTexts]
  | (name, value) :: members => by
      rw [prettyMembers,
        mem_plain_append hc (plain_of_all rfl),
        mem_plain_append hc (plain_newline _), mem_quoted_append hc,
        mem_plain_append hc (plain_of_all rfl),
        mem_prettyOnto hc, mem_prettyMembers hc]
      simp only [memberTexts, List.mem_append, List.mem_cons]
      grind

end

end

end MessageKeys.Json
