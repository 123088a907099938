import MessageKeys.Proofs.Json.RoundTrip

/-!
# Reading from a longer text

What is read from the front of a text is also read if the text goes on (`extends_of_bound`).  Only a
number may be continued by what follows it, so a number has to end before the text does.

A text that is read as an object has its closing brace, and nothing but blanks after it.  So what is
left of a written object that is cut off before its end is read as no object
(`not_readWithin_of_cut`).
-/

namespace MessageKeys.Json

/-! ## Blanks and digits -/

theorem skipBlanks_append {t after : Text} {d : CodePoint} (h : skipBlanks t = d :: after)
    (more : Text) : skipBlanks (t ++ more) = d :: (after ++ more) := by
  unfold skipBlanks at h ⊢
  rw [List.dropWhile_append, h]
  rfl

theorem skipBlanks_append_of_ne_nil {t : Text} (h : skipBlanks t ≠ []) (more : Text) :
    skipBlanks (t ++ more) = skipBlanks t ++ more := by
  obtain ⟨d, after, hafter⟩ := List.exists_cons_of_ne_nil h
  rw [skipBlanks_append hafter, hafter, List.cons_append]

theorem takeWhile_dropWhile_append {p : CodePoint → Bool} {t : Text} (h : t.dropWhile p ≠ [])
    (more : Text) :
    (t ++ more).takeWhile p = t.takeWhile p ∧ (t ++ more).dropWhile p = t.dropWhile p ++ more := by
  have hlength : (t.takeWhile p).length ≠ t.length := by
    intro heq
    have hsplit := congrArg List.length (List.takeWhile_append_dropWhile (p := p) (l := t))
    rw [List.length_append, heq] at hsplit
    exact h (List.length_eq_zero_iff.mp (by omega))
  rw [List.takeWhile_append, if_neg hlength, List.dropWhile_append, if_neg (by simpa using h)]
  exact ⟨rfl, rfl⟩

/-! ## Numbers and constants -/

theorem readWhole?_extend {t whole after : Text} (h : readWhole? t = some (whole, after))
    (hafter : after ≠ []) (more : Text) :
    readWhole? (t ++ more) = some (whole, after ++ more) := by
  cases t with
  | nil => contradiction
  | cons c rest =>
      unfold readWhole? at h ⊢
      dsimp only [List.cons_append] at h ⊢
      split_ifs at h ⊢
      · obtain ⟨rfl, rfl⟩ := Prod.mk.inj (Option.some.inj h)
        rfl
      · obtain ⟨rfl, rfl⟩ := Prod.mk.inj (Option.some.inj h)
        obtain ⟨htake, hdrop⟩ := takeWhile_dropWhile_append hafter more
        rw [List.cons_append] at htake hdrop
        rw [htake, hdrop]

theorem readFraction?_extend {t digits after : Text} (h : readFraction? t = some (digits, after))
    (hafter : after ≠ []) (more : Text) :
    readFraction? (t ++ more) = some (digits, after ++ more) := by
  cases t with
  | nil => contradiction
  | cons point rest =>
      unfold readFraction? at h ⊢
      dsimp only [List.cons_append] at h ⊢
      split_ifs at h with hpoint hdigits
      obtain ⟨rfl, rfl⟩ := Prod.mk.inj (Option.some.inj h)
      obtain ⟨htake, hdrop⟩ := takeWhile_dropWhile_append hafter more
      rw [if_pos hpoint, htake, hdrop, if_neg hdigits]

theorem readExponent?_extend {t after : Text} {size : ℤ} (h : readExponent? t = some (size, after))
    (hafter : after ≠ []) (more : Text) :
    readExponent? (t ++ more) = some (size, after ++ more) := by
  -- the digits stand after the letter, or after a sign
  have hextend : ∀ (negative : Bool) (rest : Text),
      (if (rest.takeWhile CodePoint.isDigit).isEmpty then none
        else some (if negative then -(Numeral.value (rest.takeWhile CodePoint.isDigit) : ℤ)
          else Numeral.value (rest.takeWhile CodePoint.isDigit), rest.dropWhile CodePoint.isDigit))
          = some (size, after) →
      (if ((rest ++ more).takeWhile CodePoint.isDigit).isEmpty then none
        else some (if negative
          then -(Numeral.value ((rest ++ more).takeWhile CodePoint.isDigit) : ℤ)
          else Numeral.value ((rest ++ more).takeWhile CodePoint.isDigit),
          (rest ++ more).dropWhile CodePoint.isDigit)) = some (size, after ++ more) := by
    intro negative rest hrest
    by_cases hdigits : (rest.takeWhile CodePoint.isDigit).isEmpty = true
    · rw [if_pos hdigits] at hrest
      contradiction
    · rw [if_neg hdigits] at hrest
      obtain ⟨rfl, rfl⟩ := Prod.mk.inj (Option.some.inj hrest)
      obtain ⟨htake, hdrop⟩ := takeWhile_dropWhile_append hafter more
      rw [htake, hdrop, if_neg hdigits]
  match t with
  | [] => contradiction
  | [e] =>
      simp [readExponent?] at h
  | e :: sign :: rest =>
      rw [List.cons_append, List.cons_append]
      unfold readExponent? at h ⊢
      by_cases he : (decide (e = CodePoint.ofChar 'e') || decide (e = CodePoint.ofChar 'E')) = true
      · simp only [if_pos he] at h ⊢
        by_cases hminus : sign = CodePoint.ofChar '-'
        · simp only [if_pos hminus] at h ⊢
          exact hextend true rest h
        · by_cases hplus : sign = CodePoint.ofChar '+'
          · simp only [if_neg hminus, if_pos hplus] at h ⊢
            exact hextend false rest h
          · simp only [if_neg hminus, if_neg hplus] at h ⊢
            exact hextend false (sign :: rest) h
      · simp only [if_neg he] at h
        contradiction

theorem head_of_readExponent? {t : Text} {found : ℤ × Text} (h : readExponent? t = some found) :
    ∃ e rest, t = e :: rest ∧ (e = CodePoint.ofChar 'e' ∨ e = CodePoint.ofChar 'E') := by
  cases t with
  | nil => contradiction
  | cons e rest =>
      refine ⟨e, rest, rfl, ?_⟩
      by_contra hne
      rw [readExponent?_eq_none fun c hc => ?_] at h
      · contradiction
      · obtain rfl := Option.some.inj hc
        exact not_or.mp hne

theorem Delimited.append {left : Text} (h : Delimited left) (hne : left ≠ []) (more : Text) :
    Delimited (left ++ more) := by
  cases left with
  | nil => contradiction
  | cons c rest => exact h

theorem readFraction?_extend_of_exponent {t : Text} {found : ℤ × Text}
    (h : readExponent? t = some found) (more : Text) : readFraction? (t ++ more) = none := by
  obtain ⟨e, rest, rfl, he⟩ := head_of_readExponent? h
  refine readFraction?_eq_none fun c hc => ?_
  obtain rfl := Option.some.inj hc
  rcases he with rfl | rfl <;> decide

/-- A number is read from a longer text if what follows it cannot continue it. -/
theorem readNumber_extend [Limits] {t left : Text} {value : Json}
    (h : readNumber t = .ok (value, left)) (hne : left ≠ []) (hleft : Delimited left)
    (more : Text) : readNumber (t ++ more) = .ok (value, left ++ more) := by
  have hmore := hleft.append hne more
  obtain ⟨negative, body, whole, after, rfl, hwhole, ⟨-, -, hlength, rfl, rfl⟩ |
    ⟨fraction, exponent, hfraction, hexponent, hreal, rfl, rfl⟩⟩ := readNumber_cases h
  · rw [List.append_assoc]
    exact readNumber_int (readWhole?_extend hwhole hne more)
      (readFraction?_eq_none fun c hc => (hmore c hc).2.1)
      (readExponent?_eq_none fun c hc => (hmore c hc).2.2) hlength
  rw [List.append_assoc]
  -- a part that is there is followed by more than nothing, since something is left in the end
  rcases fraction with _ | ⟨digits, afterFraction⟩
  · rcases exponent with _ | ⟨size, afterExponent⟩
    · simp at hreal
    have hafter : after ≠ [] := by
      rintro rfl
      contradiction
    exact readNumber_real (readWhole?_extend hwhole hafter more)
      (readFraction?_extend_of_exponent hexponent more)
      (readExponent?_extend hexponent hne more) (Or.inr (Option.some_ne_none _))
  · have hafter : after ≠ [] := by
      rintro rfl
      contradiction
    have hwhole' := readWhole?_extend hwhole hafter more
    rcases exponent with _ | ⟨size, afterExponent⟩
    · exact readNumber_real hwhole' (readFraction?_extend hfraction hne more)
        (readExponent?_eq_none fun c hc => (hmore c hc).2.2) (Or.inl (Option.some_ne_none _))
    · have hafterFraction : afterFraction ≠ [] := by
        rintro rfl
        contradiction
      exact readNumber_real hwhole' (readFraction?_extend hfraction hafterFraction more)
        (readExponent?_extend hexponent hne more) (Or.inl (Option.some_ne_none _))

theorem readConstant?_extend {t left : Text} {value : Json}
    (h : readConstant? t = some (value, left)) (more : Text) :
    readConstant? (t ++ more) = some (value, left ++ more) := by
  obtain ⟨⟨word, constant⟩, hpair, hfound⟩ := List.exists_of_findSome?_eq_some h
  dsimp only at hfound
  split_ifs at hfound with hword
  obtain ⟨rfl, rfl⟩ := Prod.mk.inj (Option.some.inj hfound)
  obtain ⟨rest, rfl⟩ := List.isPrefixOf_iff_prefix.mp hword
  rw [List.drop_left, List.append_assoc]
  -- the first code point tells the constants apart
  simp only [constants, List.mem_cons, List.not_mem_nil, or_false, Prod.mk.injEq] at hpair
  rcases hpair with ⟨rfl, rfl⟩ | ⟨rfl, rfl⟩ | ⟨rfl, rfl⟩ | ⟨rfl, rfl⟩ | ⟨rfl, rfl⟩ | ⟨rfl, rfl⟩ <;>
    rfl

/-! ## Strings -/

theorem hexQuad?_extend {t : Text} {n : ℕ} (h : hexQuad? t = some n) (more : Text) :
    4 ≤ t.length ∧ hexQuad? (t ++ more) = some n := by
  unfold hexQuad? at h ⊢
  split_ifs at h with hshort
  have hlength : 4 ≤ t.length := by
    rw [List.length_take] at hshort
    omega
  refine ⟨hlength, ?_⟩
  rw [List.take_append_of_le_length hlength, if_neg hshort, h]

/-- An escape has four digits, and the text goes on after them. -/
theorem length_of_readUnicodeEscape {t : Text} {found : CodePoint × ℕ}
    (h : readUnicodeEscape t = .ok found) : 5 < t.length := by
  unfold readUnicodeEscape at h
  dsimp only at h
  split at h
  · contradiction
  split at h
  · contradiction
  rename_i hempty
  rw [List.isEmpty_iff, List.drop_drop, List.drop_eq_nil_iff] at hempty
  omega

theorem ne_nil_of_readString {opening t : Text} {found : Text × Text}
    (h : readString opening t = .ok found) : t ≠ [] := by
  rintro rfl
  rw [readString.eq_def] at h
  contradiction

theorem readUnicodeEscape_of_readString {opening after : Text} {found : Text × Text}
    (h : readString opening (CodePoint.ofChar '\\' :: CodePoint.ofChar 'u' :: after) = .ok found) :
    ∃ escape, readUnicodeEscape (CodePoint.ofChar 'u' :: after) = .ok escape := by
  rw [readString.eq_def] at h
  dsimp only at h
  rw [if_neg (by decide), if_pos rfl, if_pos rfl] at h
  cases hescape : readUnicodeEscape (CodePoint.ofChar 'u' :: after) with
  | error e =>
      rw [hescape] at h
      contradiction
  | ok escape => exact ⟨escape, rfl⟩

/-- A string that begins with an escape holds the whole of it. -/
theorem joins_of_readString {opening rest more : Text} {found : Text × Text}
    (h : readString opening rest = .ok found)
    (hjoins : (Text.ofString "\\u").isPrefixOf (rest ++ more) = true) :
    (rest.drop 6).isEmpty = false ∧ (Text.ofString "\\u").isPrefixOf rest = true := by
  rw [show Text.ofString "\\u" = [CodePoint.ofChar '\\', CodePoint.ofChar 'u'] from rfl] at hjoins ⊢
  match rest with
  | [] => exact absurd rfl (ne_nil_of_readString h)
  | [c] =>
      simp only [List.singleton_append, List.isPrefixOf_cons_cons, Bool.and_eq_true, beq_iff_eq]
        at hjoins
      obtain ⟨rfl, -⟩ := hjoins
      rw [readString.eq_def] at h
      contradiction
  | c :: d :: after =>
      simp only [List.cons_append, List.isPrefixOf_cons_cons, Bool.and_eq_true, beq_iff_eq,
        List.isPrefixOf_nil_left, and_true] at hjoins
      obtain ⟨rfl, rfl⟩ := hjoins
      obtain ⟨escape, hescape⟩ := readUnicodeEscape_of_readString h
      have hlength := length_of_readUnicodeEscape hescape
      rw [List.length_cons] at hlength
      refine ⟨?_, by simp⟩
      rw [List.isEmpty_eq_false_iff, Ne, List.drop_eq_nil_iff]
      simp only [List.length_cons]
      omega

/-- An escape is read from a longer text if the string that it is in ends in the shorter one: a
second escape that it could be joined to is then whole. -/
theorem readUnicodeEscape_extend {t tail left opening : Text} {point : CodePoint} {taken : ℕ}
    (h : readUnicodeEscape t = .ok (point, taken))
    (hstring : readString opening ((t.drop 1).drop taken) = .ok (tail, left)) (more : Text) :
    readUnicodeEscape (t ++ more) = .ok (point, taken) := by
  have hlength := length_of_readUnicodeEscape h
  unfold readUnicodeEscape at h ⊢
  dsimp only at h ⊢
  rw [List.drop_append_of_le_length (by omega)]
  cases hfirst : hexQuad? (t.drop 1) with
  | none =>
      rw [hfirst] at h
      contradiction
  | some first =>
      rw [hfirst] at h
      obtain ⟨hdigits, hmore⟩ := hexQuad?_extend hfirst more
      rw [hmore, List.drop_append_of_le_length hdigits]
      dsimp only at h ⊢
      generalize hrest : (t.drop 1).drop 4 = rest at h
      have hne : rest ≠ [] := by
        rw [← hrest, List.drop_drop, Ne, List.drop_eq_nil_iff]
        omega
      rw [if_neg (by simpa using hne)] at h
      rw [if_neg (by simp [hne])]
      cases hpair : (CodePoint.ofNat first).isHighSurrogate && !(rest.drop 6).isEmpty
          && (Text.ofString "\\u").isPrefixOf rest with
      | true =>
          rw [hpair, if_pos rfl] at h
          simp only [Bool.and_eq_true, Bool.not_eq_true'] at hpair
          obtain ⟨⟨hhigh, hlong⟩, hjoins⟩ := hpair
          have hsix : 6 < rest.length := by
            rw [List.isEmpty_eq_false_iff, Ne, List.drop_eq_nil_iff] at hlong
            omega
          have hpair' : ((CodePoint.ofNat first).isHighSurrogate && !((rest ++ more).drop 6).isEmpty
              && (Text.ofString "\\u").isPrefixOf (rest ++ more)) = true := by
            obtain ⟨after, rfl⟩ := List.isPrefixOf_iff_prefix.mp hjoins
            simp only [Bool.and_eq_true, Bool.not_eq_true']
            refine ⟨⟨hhigh, ?_⟩, ?_⟩
            · rw [List.isEmpty_eq_false_iff, Ne, List.drop_eq_nil_iff, List.length_append]
              omega
            · rw [List.append_assoc]
              exact List.isPrefixOf_iff_prefix.mpr (List.prefix_append _ _)
          rw [hpair', if_pos rfl, List.drop_append_of_le_length (by omega)]
          cases hsecond : hexQuad? (rest.drop 2) with
          | none =>
              rw [hsecond] at h
              contradiction
          | some second =>
              rw [hsecond] at h
              rw [(hexQuad?_extend hsecond more).2]
              exact h
      | false =>
          rw [hpair, if_neg Bool.false_ne_true] at h
          obtain ⟨rfl, rfl⟩ := Prod.mk.inj (Except.ok.inj h)
          refine if_neg fun hpair' => ?_
          simp only [Bool.and_eq_true] at hpair'
          rw [hrest] at hstring
          obtain ⟨hlong, hjoins⟩ := joins_of_readString hstring hpair'.2
          rw [hlong, hjoins, hpair'.1.1] at hpair
          contradiction

theorem readString_unicode {opening after tail left : Text} {point : CodePoint} {taken : ℕ}
    (hescape : readUnicodeEscape (CodePoint.ofChar 'u' :: after) = .ok (point, taken))
    (h : readString opening (after.drop taken) = .ok (tail, left)) :
    readString opening (CodePoint.ofChar '\\' :: CodePoint.ofChar 'u' :: after)
      = .ok (point :: tail, left) := by
  rw [readString.eq_def]
  dsimp only
  rw [if_neg (by decide), if_pos rfl, if_pos rfl, hescape]
  dsimp only
  rw [h]

/-- A string is read from a longer text. -/
theorem readString_extend {opening t tail left : Text}
    (h : readString opening t = .ok (tail, left)) (other more : Text) :
    readString other (t ++ more) = .ok (tail, left ++ more) := by
  fun_induction readString opening t generalizing tail left with
  | case1 | case3 | case7 | case8 | case10 | case11 => contradiction
  | case2 rest =>
      obtain ⟨rfl, rfl⟩ := Prod.mk.inj (Except.ok.inj h)
      rw [List.cons_append, readString.eq_def]
      rfl
  | case4 after e hquote hescape =>
      rw [hescape] at h
      contradiction
  | case5 after point taken e hread hquote hescape =>
      rw [hescape] at h
      dsimp only at h
      rw [hread] at h
      contradiction
  | case6 after point taken others rest hread hquote hescape ih =>
      rw [hescape] at h
      dsimp only at h
      rw [hread] at h
      obtain ⟨rfl, rfl⟩ := Prod.mk.inj (Except.ok.inj h)
      have hlonger := readUnicodeEscape_extend hescape hread more
      have htaken : taken ≤ after.length := by
        have hne := ne_nil_of_readString hread
        rw [Ne, List.drop_eq_nil_iff] at hne
        omega
      have htail := ih hread
      rw [← List.drop_append_of_le_length htaken] at htail
      exact readString_unicode hlonger htail
  | case9 letter after hletter point hpoint others rest hread hquote ih =>
      obtain ⟨rfl, rfl⟩ := Prod.mk.inj (Except.ok.inj h)
      exact readString_escape hletter hpoint (ih hread)
  | case12 c after hquote hslash hcontrol others rest hread ih =>
      obtain ⟨rfl, rfl⟩ := Prod.mk.inj (Except.ok.inj h)
      rw [List.cons_append, readString.eq_def]
      dsimp only
      rw [if_neg hquote, if_neg hslash, if_neg hcontrol, ih hread]

/-! ## Values -/

/-- What follows a value inside an array or object does not continue it. -/
theorem delimited_of_skipBlanks {left after : Text} {d : CodePoint}
    (h : skipBlanks left = d :: after)
    (hd : d = CodePoint.ofNat 0x7d ∨ d = CodePoint.ofChar ']' ∨ d = CodePoint.ofChar ',') :
    left ≠ [] ∧ Delimited left := by
  cases left with
  | nil => contradiction
  | cons c rest =>
      refine ⟨List.cons_ne_nil c rest, fun first hfirst => ?_⟩
      obtain rfl := Option.some.inj hfirst
      by_cases hblank : isBlank c = true
      · simp only [isBlank, Bool.or_eq_true, beq_iff_eq] at hblank
        have hval : c.val ≤ 0x20 := by omega
        have hne : ∀ other : CodePoint, 0x20 < other.val → c ≠ other := by
          rintro other hother rfl
          omega
        refine ⟨?_, hne _ (by decide), hne _ (by decide), hne _ (by decide)⟩
        simp only [CodePoint.isDigit, Bool.and_eq_false_iff, decide_eq_false_iff_not]
        omega
      · unfold skipBlanks at h
        rw [List.dropWhile_cons_of_neg hblank] at h
        obtain rfl := (List.cons.inj h).1
        rcases hd with rfl | rfl | rfl <;> decide

section

variable [Limits] {bound longer room : ℕ} {more : Text}

theorem readValue_brace_extend {c : CodePoint} {rest left : Text} {value : Json} (hc : c.val = 0x7b)
    (hmembers : ∀ room t members left, readMembers bound room t = .ok (members, left) →
      readMembers longer room (t ++ more) = .ok (members, left ++ more))
    (h : readValue (bound + 1) room (c :: rest) = .ok (value, left)) :
    readValue (longer + 1) room (c :: rest ++ more) = .ok (value, left ++ more) := by
  have hquote : c ≠ CodePoint.ofChar '"' := by
    rintro rfl
    exact absurd hc (by decide)
  rw [List.cons_append]
  unfold readValue at h ⊢
  rw [if_neg hquote, if_pos hc] at h ⊢
  cases room with
  | zero => contradiction
  | succ room =>
      cases hrest : skipBlanks rest with
      | nil =>
          rw [hrest] at h
          contradiction
      | cons d after =>
          rw [hrest] at h
          rw [skipBlanks_append hrest more]
          dsimp only at h ⊢
          by_cases hclose : d.val = 0x7d
          · rw [if_pos hclose] at h ⊢
            obtain ⟨rfl, rfl⟩ := Prod.mk.inj (Except.ok.inj h)
            rfl
          · rw [if_neg hclose] at h ⊢
            cases hread : readMembers bound room (d :: after) with
            | error e =>
                rw [hread] at h
                contradiction
            | ok found =>
                obtain ⟨members, behind⟩ := found
                rw [hread] at h
                obtain ⟨rfl, rfl⟩ := Prod.mk.inj (Except.ok.inj h)
                have hlonger := hmembers _ _ _ _ hread
                rw [List.cons_append] at hlonger
                rw [hlonger]

theorem readValue_bracket_extend {rest left : Text} {value : Json}
    (hitems : ∀ room t items left, readItems bound room t = .ok (items, left) →
      readItems longer room (t ++ more) = .ok (items, left ++ more))
    (h : readValue (bound + 1) room (CodePoint.ofChar '[' :: rest) = .ok (value, left)) :
    readValue (longer + 1) room (CodePoint.ofChar '[' :: rest ++ more)
      = .ok (value, left ++ more) := by
  rw [List.cons_append]
  unfold readValue at h ⊢
  rw [if_neg (by decide), if_neg (by decide), if_pos rfl] at h ⊢
  cases room with
  | zero => contradiction
  | succ room =>
      cases hrest : skipBlanks rest with
      | nil =>
          rw [hrest] at h
          contradiction
      | cons d after =>
          rw [hrest] at h
          rw [skipBlanks_append hrest more]
          dsimp only at h ⊢
          by_cases hclose : d = CodePoint.ofChar ']'
          · rw [if_pos hclose] at h ⊢
            obtain ⟨rfl, rfl⟩ := Prod.mk.inj (Except.ok.inj h)
            rfl
          · rw [if_neg hclose] at h ⊢
            cases hread : readItems bound room (d :: after) with
            | error e =>
                rw [hread] at h
                contradiction
            | ok found =>
                obtain ⟨items, behind⟩ := found
                rw [hread] at h
                obtain ⟨rfl, rfl⟩ := Prod.mk.inj (Except.ok.inj h)
                have hlonger := hitems _ _ _ _ hread
                rw [List.cons_append] at hlonger
                rw [hlonger]

/-- One call of the value reader reads the same from a longer text, if the calls inside it do. -/
theorem readValue_extend_succ {t left : Text} {value : Json}
    (hmembers : ∀ room t members left, readMembers bound room t = .ok (members, left) →
      readMembers longer room (t ++ more) = .ok (members, left ++ more))
    (hitems : ∀ room t items left, readItems bound room t = .ok (items, left) →
      readItems longer room (t ++ more) = .ok (items, left ++ more))
    (hne : left ≠ []) (hleft : Delimited left)
    (h : readValue (bound + 1) room t = .ok (value, left)) :
    readValue (longer + 1) room (t ++ more) = .ok (value, left ++ more) := by
  cases t with
  | nil => contradiction
  | cons c rest =>
      by_cases hbrace : c.val = 0x7b
      · exact readValue_brace_extend hbrace hmembers h
      by_cases hbracket : c = CodePoint.ofChar '['
      · subst hbracket
        exact readValue_bracket_extend hitems h
      by_cases hquote : c = CodePoint.ofChar '"'
      · rw [List.cons_append]
        unfold readValue at h ⊢
        rw [if_pos hquote] at h ⊢
        cases hread : readString (c :: rest) rest with
        | error e =>
            rw [hread] at h
            contradiction
        | ok found =>
            obtain ⟨s, behind⟩ := found
            rw [hread] at h
            obtain ⟨rfl, rfl⟩ := Prod.mk.inj (Except.ok.inj h)
            rw [readString_extend hread]
      · unfold readValue at h
        rw [if_neg hquote, if_neg hbrace, if_neg hbracket] at h
        cases hconstant : readConstant? (c :: rest) with
        | some found =>
            obtain ⟨constant, behind⟩ := found
            rw [hconstant] at h
            obtain ⟨rfl, rfl⟩ := Prod.mk.inj (Except.ok.inj h)
            have hlonger := readConstant?_extend hconstant more
            rw [List.cons_append] at hlonger ⊢
            unfold readValue
            rw [if_neg hquote, if_neg hbrace, if_neg hbracket, hlonger]
        | none =>
            rw [hconstant] at h
            exact readValue_of_readNumber (readNumber_extend h hne hleft more)

/-- The items that are read: the first, and those after a comma. -/
theorem readItems_eq_ok_iff {t left : Text} {items : List Json} :
    readItems (bound + 1) room t = .ok (items, left) ↔
      ∃ item afterItem, readValue bound room t = .ok (item, afterItem) ∧
        ((skipBlanks afterItem = CodePoint.ofChar ']' :: left ∧ items = [item]) ∨
          ∃ after others, skipBlanks afterItem = CodePoint.ofChar ',' :: after ∧
            readItems bound room (skipBlanks after) = .ok (others, left) ∧
            items = item :: others) := by
  rw [readItems]
  constructor
  · intro h
    split at h
    · contradiction
    rename_i item afterItem hread
    refine ⟨item, afterItem, hread, ?_⟩
    dsimp only at h
    split at h
    · contradiction
    rename_i d after hnext
    split at h
    · rename_i hclose
      obtain ⟨rfl, rfl⟩ := Prod.mk.inj (Except.ok.inj h)
      exact Or.inl ⟨hclose ▸ hnext, rfl⟩
    split at h
    · contradiction
    rename_i hcomma
    split at h
    · contradiction
    rename_i others behind hothers
    obtain ⟨rfl, rfl⟩ := Prod.mk.inj (Except.ok.inj h)
    exact Or.inr ⟨after, others, not_not.mp hcomma ▸ hnext, hothers, rfl⟩
  · rintro ⟨item, afterItem, hread, ⟨hclose, rfl⟩ | ⟨after, others, hcomma, hothers, rfl⟩⟩
    · rw [hread]
      dsimp only
      rw [hclose]
      exact if_pos rfl
    · rw [hread]
      dsimp only
      rw [hcomma]
      dsimp only
      rw [if_neg (by decide), if_neg (by simp), hothers]

/-- The members that are read: the name and the value of the first, and those after a comma. -/
theorem readMembers_eq_ok_iff {t left : Text} {members : List (Text × Json)} :
    readMembers (bound + 1) room t = .ok (members, left) ↔
      ∃ rest name afterName afterColon value afterValue, t = CodePoint.ofChar '"' :: rest ∧
        readString t rest = .ok (name, afterName) ∧
        skipBlanks afterName = CodePoint.ofChar ':' :: afterColon ∧
        readValue bound room (skipBlanks afterColon) = .ok (value, afterValue) ∧
        ((skipBlanks afterValue = CodePoint.ofNat 0x7d :: left ∧ members = [(name, value)]) ∨
          ∃ after others, skipBlanks afterValue = CodePoint.ofChar ',' :: after ∧
            readMembers bound room (skipBlanks after) = .ok (others, left) ∧
            members = (name, value) :: others) := by
  constructor
  · intro h
    cases t with
    | nil => contradiction
    | cons c rest =>
        rw [readMembers] at h
        dsimp only at h
        split at h
        · contradiction
        rename_i hquote
        obtain rfl := not_not.mp hquote
        split at h
        · contradiction
        rename_i name afterName hname
        split at h
        · contradiction
        rename_i colon afterColon hcolon
        split at h
        · contradiction
        rename_i hne
        obtain rfl := not_not.mp hne
        split at h
        · contradiction
        rename_i value afterValue hread
        refine ⟨rest, name, afterName, afterColon, value, afterValue, rfl, hname, hcolon, hread, ?_⟩
        split at h
        · contradiction
        rename_i d after hnext
        split at h
        · rename_i hclose
          obtain ⟨rfl, rfl⟩ := Prod.mk.inj (Except.ok.inj h)
          rw [show d = CodePoint.ofNat 0x7d from Fin.ext hclose] at hnext
          exact Or.inl ⟨hnext, rfl⟩
        split at h
        · contradiction
        rename_i hcomma
        split at h
        · contradiction
        rename_i others behind hothers
        obtain ⟨rfl, rfl⟩ := Prod.mk.inj (Except.ok.inj h)
        exact Or.inr ⟨after, others, not_not.mp hcomma ▸ hnext, hothers, rfl⟩
  · rintro ⟨rest, name, afterName, afterColon, value, afterValue, rfl, hname, hcolon, hread, hnext⟩
    rw [readMembers, if_neg (by simp), hname]
    dsimp only
    rw [hcolon]
    dsimp only
    rw [if_neg (by simp), hread]
    dsimp only
    rcases hnext with ⟨hclose, rfl⟩ | ⟨after, others, hcomma, hothers, rfl⟩
    · rw [hclose]
      exact if_pos rfl
    · rw [hcomma]
      dsimp only
      rw [if_neg (by decide), if_neg (by simp), hothers]

theorem readItems_extend_succ {t left : Text} {items : List Json}
    (hvalue : ∀ room t value left, left ≠ [] → Delimited left →
      readValue bound room t = .ok (value, left) →
      readValue longer room (t ++ more) = .ok (value, left ++ more))
    (hitems : ∀ room t items left, readItems bound room t = .ok (items, left) →
      readItems longer room (t ++ more) = .ok (items, left ++ more))
    (h : readItems (bound + 1) room t = .ok (items, left)) :
    readItems (longer + 1) room (t ++ more) = .ok (items, left ++ more) := by
  obtain ⟨item, afterItem, hread, hnext⟩ := readItems_eq_ok_iff.mp h
  refine readItems_eq_ok_iff.mpr ⟨item, afterItem ++ more, ?_, ?_⟩
  · obtain ⟨hne, hdelimited⟩ : afterItem ≠ [] ∧ Delimited afterItem := by
      rcases hnext with ⟨hclose, -⟩ | ⟨after, others, hcomma, -⟩
      · exact delimited_of_skipBlanks hclose (Or.inr (Or.inl rfl))
      · exact delimited_of_skipBlanks hcomma (Or.inr (Or.inr rfl))
    exact hvalue _ _ _ _ hne hdelimited hread
  · rcases hnext with ⟨hclose, rfl⟩ | ⟨after, others, hcomma, hothers, rfl⟩
    · exact Or.inl ⟨skipBlanks_append hclose more, rfl⟩
    · refine Or.inr ⟨after ++ more, others, skipBlanks_append hcomma more, ?_, rfl⟩
      obtain ⟨first, rest, hfirst, -⟩ := head_of_readItems hothers
      rw [skipBlanks_append_of_ne_nil (by simp [hfirst])]
      exact hitems _ _ _ _ hothers

theorem readMembers_extend_succ {t left : Text} {members : List (Text × Json)}
    (hvalue : ∀ room t value left, left ≠ [] → Delimited left →
      readValue bound room t = .ok (value, left) →
      readValue longer room (t ++ more) = .ok (value, left ++ more))
    (hmembers : ∀ room t members left, readMembers bound room t = .ok (members, left) →
      readMembers longer room (t ++ more) = .ok (members, left ++ more))
    (h : readMembers (bound + 1) room t = .ok (members, left)) :
    readMembers (longer + 1) room (t ++ more) = .ok (members, left ++ more) := by
  obtain ⟨rest, name, afterName, afterColon, value, afterValue, rfl, hname, hcolon, hread, hnext⟩ :=
    readMembers_eq_ok_iff.mp h
  refine readMembers_eq_ok_iff.mpr ⟨rest ++ more, name, afterName ++ more, afterColon ++ more,
    value,
    afterValue ++ more, rfl, readString_extend hname _ more, skipBlanks_append hcolon more, ?_, ?_⟩
  · obtain ⟨hne, hdelimited⟩ : afterValue ≠ [] ∧ Delimited afterValue := by
      rcases hnext with ⟨hclose, -⟩ | ⟨after, others, hcomma, -⟩
      · exact delimited_of_skipBlanks hclose (Or.inl rfl)
      · exact delimited_of_skipBlanks hcomma (Or.inr (Or.inr rfl))
    obtain ⟨first, others, hfirst, -⟩ := head_of_readValue hread
    rw [skipBlanks_append_of_ne_nil (by simp [hfirst])]
    exact hvalue _ _ _ _ hne hdelimited hread
  · rcases hnext with ⟨hclose, rfl⟩ | ⟨after, others, hcomma, hothers, rfl⟩
    · exact Or.inl ⟨skipBlanks_append hclose more, rfl⟩
    · refine Or.inr ⟨after ++ more, others, skipBlanks_append hcomma more, ?_, rfl⟩
      have hne : skipBlanks after ≠ [] := by
        intro hnil
        rw [hnil] at hothers
        cases bound <;> contradiction
      rw [skipBlanks_append_of_ne_nil hne]
      exact hmembers _ _ _ _ hothers

/-- What the reader reads it also reads from a longer text, and with more calls to spend.  A value
must be followed by something that ends it.  The induction is on the bound of nested calls, for
values, members and items at once. -/
theorem extends_of_bound (bound : ℕ) : ∀ longer, bound ≤ longer →
    (∀ room t value left, left ≠ [] → Delimited left →
      readValue bound room t = .ok (value, left) →
      readValue longer room (t ++ more) = .ok (value, left ++ more)) ∧
    (∀ room t members left, readMembers bound room t = .ok (members, left) →
      readMembers longer room (t ++ more) = .ok (members, left ++ more)) ∧
    (∀ room t items left, readItems bound room t = .ok (items, left) →
      readItems longer room (t ++ more) = .ok (items, left ++ more)) := by
  induction bound with
  | zero =>
      intro longer _
      refine ⟨?_, ?_, ?_⟩
      · intro room t value left _ _ h
        cases t <;> contradiction
      · intro room t members left h
        cases t <;> contradiction
      · intro room t items left h
        contradiction
  | succ bound ih =>
      intro longer hlonger
      obtain ⟨longer, rfl⟩ := Nat.exists_eq_add_of_le' (Nat.le_trans (Nat.le_add_left 1 _) hlonger)
      obtain ⟨hvalue, hmembers, hitems⟩ := ih longer (Nat.le_of_succ_le_succ hlonger)
      exact ⟨fun _ _ _ _ => readValue_extend_succ hmembers hitems,
        fun _ _ _ _ => readMembers_extend_succ hvalue hmembers,
        fun _ _ _ _ => readItems_extend_succ hvalue hitems⟩

/-- A text that begins with a brace is read from a longer one, whatever follows it there. -/
theorem readValue_extend {c : CodePoint} {rest left : Text} {value : Json} (hc : c.val = 0x7b)
    (hlonger : bound ≤ longer) (h : readValue bound room (c :: rest) = .ok (value, left)) :
    readValue longer room (c :: rest ++ more) = .ok (value, left ++ more) := by
  cases bound with
  | zero => contradiction
  | succ bound =>
      obtain ⟨longer, rfl⟩ := Nat.exists_eq_add_of_le' (Nat.le_trans (Nat.le_add_left 1 _) hlonger)
      exact readValue_brace_extend hc
        (extends_of_bound bound longer (Nat.le_of_succ_le_succ hlonger)).2.1 h

/-- What is left of a written document that is cut off before its closing brace is not read. -/
theorem not_readWithin_of_cut {members : List (Text × Json)} (h : Readable room (.obj members))
    {t : Text} (htext : prettyOnto 0 [CodePoint.ofChar '\n'] (.obj members) = t ++ more)
    (hmore : 1 < more.length) (value : Json) : readWithin room t ≠ .ok value := by
  intro hread
  cases t with
  | nil => contradiction
  | cons c rest =>
      obtain ⟨tail, htail⟩ := prettyOnto_obj 0 [CodePoint.ofChar '\n'] members
      obtain rfl : c = CodePoint.ofNat 0x7b := (List.cons.inj (htext.symm.trans htail)).1
      unfold readWithin at hread
      dsimp only at hread
      rw [if_neg (by decide), skipBlanks_of_opens ⟨rfl, by decide⟩] at hread
      split at hread
      · contradiction
      rename_i found left hfound
      -- the whole text would be read as the same value, with more than a newline left
      have hlonger : readValue (2 * (CodePoint.ofNat 0x7b :: rest ++ more).length + 2) _
          (CodePoint.ofNat 0x7b :: rest ++ more) = .ok (found, left ++ more) :=
        readValue_extend rfl (by simp only [List.length_append]; omega) hfound
      have hwhole := h.readsBack 0 (2 * (CodePoint.ofNat 0x7b :: rest ++ more).length + 2)
        [CodePoint.ofChar '\n'] (delimited_cons (Or.inr rfl) []) (by rw [htext]; omega)
      rw [htext, hlonger] at hwhole
      have hlength := congrArg List.length (Prod.mk.inj (Except.ok.inj hwhole)).2
      rw [List.length_append, List.length_singleton] at hlength
      omega

end

end MessageKeys.Json
