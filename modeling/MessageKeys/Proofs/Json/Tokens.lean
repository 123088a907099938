import MessageKeys.Json.Reader
import MessageKeys.Json.Writer
import MessageKeys.Proofs.Number.Shortest

/-!
# Numbers and strings read back

What the writer puts down for a number or a string is read as that number or string, and reading
stops where it ends, if the text after a number cannot continue it (`Delimited`).

A written real is a whole part, perhaps a fraction and perhaps an exponent.  In each of the four
layouts these parts amount to the decimal that is laid out (`readNumber_layout`), so with the
shortest decimal the value comes back (`readNumber_realText`).
-/

namespace MessageKeys

namespace Numeral

theorem foldl_value (digits : Text) (total : ℕ) :
    digits.foldl (fun total c => 10 * total + (c.val - 0x30)) total
      = total * 10 ^ digits.length + value digits := by
  induction digits generalizing total with
  | nil => simp [value]
  | cons c rest ih =>
      have hvalue : value (c :: rest) = (c.val - 0x30) * 10 ^ rest.length + value rest := by
        rw [value, List.foldl_cons, ih, Nat.mul_zero, Nat.zero_add]
      rw [List.foldl_cons, ih, hvalue, List.length_cons, pow_succ]
      ring

theorem value_append (front back : Text) :
    value (front ++ back) = value front * 10 ^ back.length + value back := by
  rw [value, List.foldl_append, foldl_value]
  rfl

end Numeral

namespace Json

/-! ## Runs of digits -/

/-- A text that does not begin with a digit. -/
def NoDigit (rest : Text) : Prop :=
  ∀ c ∈ rest.head?, c.isDigit = false

/-- A text that cannot continue a number before it. -/
def Delimited (rest : Text) : Prop :=
  ∀ c ∈ rest.head?, c.isDigit = false ∧ c ≠ ('.' : Char) ∧ c ≠ ('e' : Char) ∧ c ≠ ('E' : Char)

theorem Delimited.noDigit {rest : Text} (h : Delimited rest) : NoDigit rest :=
  fun c hc => (h c hc).1

theorem takeWhile_isDigit {digits rest : Text} (hdigits : ∀ c ∈ digits, c.isDigit = true)
    (hrest : NoDigit rest) : (digits ++ rest).takeWhile CodePoint.isDigit = digits := by
  rw [List.takeWhile_append_of_pos hdigits]
  cases rest with
  | nil => simp
  | cons c more => simp [hrest c rfl]

theorem dropWhile_isDigit {digits rest : Text} (hdigits : ∀ c ∈ digits, c.isDigit = true)
    (hrest : NoDigit rest) : (digits ++ rest).dropWhile CodePoint.isDigit = rest := by
  rw [List.dropWhile_append_of_pos hdigits]
  cases rest with
  | nil => rfl
  | cons c more => simp [hrest c rfl]

theorem isDigit_of_mem_zeros {count : ℕ} : ∀ c ∈ zeros count, c.isDigit = true := by
  intro c hc
  rw [List.eq_of_mem_replicate hc]
  rfl

theorem value_zeros (count : ℕ) : Numeral.value (zeros count) = 0 := by
  induction count with
  | zero => rfl
  | succ count ih =>
      rw [show zeros (count + 1) = zeros 1 ++ zeros count from rfl, Numeral.value_append, ih,
        show Numeral.value (zeros 1) = 0 from rfl, Nat.zero_mul]

theorem isDigit_of_mem_zeros_append {count : ℕ} {digits : Text}
    (hdigits : ∀ c ∈ digits, c.isDigit = true) : ∀ c ∈ zeros count ++ digits, c.isDigit = true := by
  intro c hc
  rcases List.mem_append.mp hc with hc | hc
  · exact isDigit_of_mem_zeros c hc
  · exact hdigits c hc

theorem value_zeros_append (count : ℕ) (digits : Text) :
    Numeral.value (zeros count ++ digits) = Numeral.value digits := by
  rw [Numeral.value_append, value_zeros, Nat.zero_mul, Nat.zero_add]

/-! ## The parts of a number -/

/-- The whole part of a number: a zero alone, or digits that start with another one. -/
def IsWhole (whole : Text) : Prop :=
  whole = [CodePoint.ofChar '0'] ∨
    (∃ c rest, whole = c :: rest ∧ c ≠ CodePoint.ofChar '0') ∧ ∀ c ∈ whole, c.isDigit = true

theorem readWhole?_append {whole rest : Text} (hwhole : IsWhole whole) (hrest : NoDigit rest) :
    readWhole? (whole ++ rest) = some (whole, rest) := by
  rcases hwhole with rfl | ⟨⟨c, more, rfl, hc⟩, hdigits⟩
  · rfl
  · have hdigit : c.isDigit = true := hdigits c List.mem_cons_self
    have htake := takeWhile_isDigit hdigits hrest
    have hdrop := dropWhile_isDigit hdigits hrest
    rw [List.cons_append] at htake hdrop ⊢
    unfold readWhole?
    dsimp only
    rw [if_neg hc, if_pos hdigit, htake, hdrop]

theorem readFraction?_append {digits rest : Text} (hne : digits ≠ [])
    (hdigits : ∀ c ∈ digits, c.isDigit = true) (hrest : NoDigit rest) :
    readFraction? (CodePoint.ofChar '.' :: (digits ++ rest)) = some (digits, rest) := by
  unfold readFraction?
  dsimp only
  rw [if_pos rfl, takeWhile_isDigit hdigits hrest, dropWhile_isDigit hdigits hrest,
    if_neg (by simpa using hne)]

theorem readFraction?_eq_none {rest : Text} (h : ∀ c ∈ rest.head?, c ≠ ('.' : Char)) :
    readFraction? rest = none := by
  cases rest with
  | nil => rfl
  | cons c more => exact if_neg (h c rfl)

theorem readExponent?_eq_none {rest : Text}
    (h : ∀ c ∈ rest.head?, c ≠ ('e' : Char) ∧ c ≠ ('E' : Char)) : readExponent? rest = none := by
  cases rest with
  | nil => rfl
  | cons c more =>
      obtain ⟨hlower, hupper⟩ := h c rfl
      unfold readExponent?
      exact if_neg (by simp [hlower, hupper])

theorem readExponent?_append {digits rest : Text} (hne : digits ≠ [])
    (hdigits : ∀ c ∈ digits, c.isDigit = true) (hrest : NoDigit rest) (negative : Bool) :
    readExponent? (Text.ofString (if negative then "e-" else "e+") ++ (digits ++ rest))
      = some (if negative then -(Numeral.value digits : ℤ) else Numeral.value digits, rest) := by
  have hempty : ¬digits.isEmpty = true := by simpa using hne
  cases negative with
  | true =>
      rw [if_pos rfl,
        show Text.ofString "e-" = [CodePoint.ofChar 'e', CodePoint.ofChar '-'] from rfl]
      simp only [List.cons_append, List.nil_append]
      unfold readExponent?
      simp [takeWhile_isDigit hdigits hrest, dropWhile_isDigit hdigits hrest, hne]
  | false =>
      rw [if_neg Bool.false_ne_true,
        show Text.ofString "e+" = [CodePoint.ofChar 'e', CodePoint.ofChar '+'] from rfl]
      simp only [List.cons_append, List.nil_append]
      unfold readExponent?
      simp [takeWhile_isDigit hdigits hrest, dropWhile_isDigit hdigits hrest, hne,
        show CodePoint.ofChar '+' ≠ CodePoint.ofChar '-' by decide]

/-- The sign of a number as it is written. -/
def signText (negative : Bool) : Text :=
  if negative then Text.ofString "-" else []

theorem isPrefixOf_minus {negative : Bool} {body : Text} {parts : Text × Text}
    (h : readWhole? body = some parts) :
    (Text.ofString "-").isPrefixOf (signText negative ++ body) = negative := by
  cases negative with
  | true => rfl
  | false =>
      cases body with
      | nil => contradiction
      | cons c rest =>
          have hminus : CodePoint.ofChar '-' ≠ c := by
            rintro rfl
            contradiction
          have hhead : (CodePoint.ofChar '-' == c) = false := by simpa using hminus
          rw [show Text.ofString "-" = [CodePoint.ofChar '-'] from rfl]
          simp only [signText, Bool.false_eq_true, if_false, List.nil_append,
            List.isPrefixOf_cons_cons,
            hhead, Bool.false_and]

theorem drop_signText (negative : Bool) (body : Text) :
    (if negative then (signText negative ++ body).drop 1 else signText negative ++ body)
      = body := by
  cases negative <;> rfl

theorem readNumber_int [Limits] {negative : Bool} {body whole rest : Text}
    (hwhole : readWhole? body = some (whole, rest)) (hfraction : readFraction? rest = none)
    (hexponent : readExponent? rest = none) (hlength : whole.length ≤ Limits.digits) :
    readNumber (signText negative ++ body) = .ok
      (.int (if negative then -(Numeral.value whole : ℤ) else Numeral.value whole), rest) := by
  unfold readNumber
  dsimp only
  rw [isPrefixOf_minus hwhole, drop_signText, hwhole]
  dsimp only
  rw [hfraction]
  simp only [Option.map_none, Option.getD_none, hexponent]
  rw [if_neg (by omega)]

/-- A number with a fraction or an exponent is the decimal of its digits. -/
theorem readNumber_real [Limits] {negative : Bool} {body whole after : Text}
    {fraction : Option (Text × Text)} {exponent : Option (ℤ × Text)}
    (hwhole : readWhole? body = some (whole, after)) (hfraction : readFraction? after = fraction)
    (hexponent : readExponent? ((fraction.map Prod.snd).getD after) = exponent)
    (hreal : fraction ≠ none ∨ exponent ≠ none) :
    readNumber (signText negative ++ body) = .ok
      (.real (Binary64.ofDecimal negative
        (Numeral.value (whole ++ (fraction.map Prod.fst).getD []))
        ((exponent.map Prod.fst).getD 0 - (((fraction.map Prod.fst).getD []).length : ℤ))),
        (exponent.map Prod.snd).getD ((fraction.map Prod.snd).getD after)) := by
  unfold readNumber
  dsimp only
  rw [isPrefixOf_minus hwhole, drop_signText, hwhole]
  dsimp only
  rw [hfraction, hexponent]
  rcases fraction with _ | fraction
  · rcases exponent with _ | exponent
    · simp at hreal
    · rfl
  · rfl

theorem exists_signText (t : Text) : ∃ body, t = signText ((Text.ofString "-").isPrefixOf t) ++ body
    ∧ (if (Text.ofString "-").isPrefixOf t then t.drop 1 else t) = body := by
  cases hminus : (Text.ofString "-").isPrefixOf t with
  | true =>
      obtain ⟨body, rfl⟩ := List.isPrefixOf_iff_prefix.mp hminus
      exact ⟨body, rfl, rfl⟩
  | false => exact ⟨t, rfl, rfl⟩

/-- What is read as a number is a sign and a whole part, alone or with a fraction or an exponent. -/
theorem readNumber_cases [Limits] {t left : Text} {value : Json}
    (h : readNumber t = .ok (value, left)) :
    ∃ negative body whole after, t = signText negative ++ body ∧
      readWhole? body = some (whole, after) ∧
      ((readFraction? after = none ∧ readExponent? after = none ∧ whole.length ≤ Limits.digits ∧
          value = .int (if negative then -(Numeral.value whole : ℤ) else Numeral.value whole) ∧
          left = after) ∨
        ∃ fraction exponent, readFraction? after = fraction ∧
          readExponent? ((fraction.map Prod.snd).getD after) = exponent ∧
          (fraction ≠ none ∨ exponent ≠ none) ∧
          value = .real (Binary64.ofDecimal negative
            (Numeral.value (whole ++ (fraction.map Prod.fst).getD []))
            ((exponent.map Prod.fst).getD 0 - (((fraction.map Prod.fst).getD []).length : ℤ))) ∧
          left = (exponent.map Prod.snd).getD ((fraction.map Prod.snd).getD after)) := by
  obtain ⟨body, ht, hbody⟩ := exists_signText t
  unfold readNumber at h
  dsimp only at h
  rw [hbody] at h
  split at h
  · contradiction
  · rename_i whole after hwhole
    refine ⟨_, body, whole, after, ht, hwhole, ?_⟩
    split at h
    · rename_i hfraction hexponent
      split at h
      · contradiction
      rename_i hmany
      obtain ⟨rfl, rfl⟩ := Prod.mk.inj (Except.ok.inj h)
      rw [hfraction] at hexponent
      exact Or.inl ⟨hfraction, hexponent, not_lt.mp hmany, rfl, rfl⟩
    · rename_i hparts
      obtain ⟨rfl, rfl⟩ := Prod.mk.inj (Except.ok.inj h)
      refine Or.inr ⟨_, _, rfl, rfl, ?_, rfl, rfl⟩
      by_contra hneither
      obtain ⟨hfraction, hexponent⟩ := not_or.mp hneither
      exact hparts (not_ne_iff.mp hfraction) (not_ne_iff.mp hexponent)

/-! ## Whole numbers -/

theorem isWhole_decimal_append (n : ℕ) (more : Text) (hmore : ∀ c ∈ more, c.isDigit = true)
    (h : 0 < n ∨ more = []) : IsWhole (Numeral.decimal n ++ more) := by
  rcases Nat.eq_zero_or_pos n with rfl | hn
  · obtain rfl := h.resolve_left (lt_irrefl 0)
    left
    rw [Numeral.decimal, if_pos (by norm_num)]
    rfl
  · have hdigits : ∀ c ∈ Numeral.decimal n ++ more, c.isDigit = true := by
      intro c hc
      rcases List.mem_append.mp hc with hc | hc
      · exact Numeral.all_isDigit_decimal n c hc
      · exact hmore c hc
    refine Or.inr ⟨?_, hdigits⟩
    clear h hmore hdigits
    -- the first digit is that of the leading part
    fun_induction Numeral.decimal n generalizing more with
    | case1 n hlt =>
        refine ⟨_, _, rfl, fun heq => ?_⟩
        have hval := congrArg Fin.val heq
        rw [Numeral.digit_val hlt] at hval
        have : (CodePoint.ofChar '0').val = 0x30 := rfl
        omega
    | case2 n hlt ih =>
        rw [List.append_assoc]
        exact ih _ (by omega)

theorem isWhole_decimal (n : ℕ) : IsWhole (Numeral.decimal n) := by
  have hwhole := isWhole_decimal_append n [] (by simp) (Or.inr rfl)
  rwa [List.append_nil] at hwhole

theorem signed_eq (n : ℤ) :
    Numeral.signed n = signText (decide (n < 0)) ++ Numeral.decimal n.natAbs := by
  cases n with
  | ofNat n => rfl
  | negSucc n =>
      rw [decide_eq_true (Int.negSucc_lt_zero n)]
      rfl

/-- A written whole number is read as that number. -/
theorem readNumber_signed [Limits] {n : ℤ} {rest : Text} (hrest : Delimited rest)
    (hlength : (Numeral.decimal n.natAbs).length ≤ Limits.digits) :
    readNumber (Numeral.signed n ++ rest) = .ok (.int n, rest) := by
  rw [signed_eq, List.append_assoc,
    readNumber_int (readWhole?_append (isWhole_decimal n.natAbs) hrest.noDigit)
      (readFraction?_eq_none fun c hc => (hrest c hc).2.1)
      (readExponent?_eq_none fun c hc => (hrest c hc).2.2) hlength,
    Numeral.value_decimal]
  congr 3
  by_cases hn : n < 0
  · rw [if_pos (decide_eq_true hn)]
    omega
  · rw [if_neg (by simpa using hn)]
    omega

/-! ## Reals -/

theorem noDigit_cons {c : CodePoint} {rest : Text} (h : c.isDigit = false) :
    NoDigit (c :: rest) := by
  intro d hd
  rw [← Option.some.inj hd]
  exact h

theorem IsWhole.take {whole : Text} (h : IsWhole whole) (count : ℕ) (hcount : 0 < count) :
    IsWhole (whole.take count) := by
  obtain ⟨k, rfl⟩ := Nat.exists_eq_succ_of_ne_zero hcount.ne'
  rcases h with rfl | ⟨⟨c, rest, rfl, hc⟩, hdigits⟩
  · exact Or.inl (by simp)
  · exact Or.inr ⟨⟨c, rest.take k, rfl, hc⟩, fun d hd => hdigits d (List.mem_of_mem_take hd)⟩

theorem readNumber_positional [Limits] (whole fraction : Text) {rest : Text}
    (hwhole : IsWhole whole)
    (hne : fraction ≠ []) (hdigits : ∀ c ∈ fraction, c.isDigit = true) (hrest : Delimited rest)
    (negative : Bool) :
    readNumber (signText negative ++ (whole ++ CodePoint.ofChar '.' :: (fraction ++ rest))) = .ok
      (.real (Binary64.ofDecimal negative (Numeral.value (whole ++ fraction))
        (0 - (fraction.length : ℤ))), rest) :=
  readNumber_real (readWhole?_append hwhole (noDigit_cons rfl))
    (readFraction?_append hne hdigits hrest.noDigit)
    (readExponent?_eq_none fun c hc => (hrest c hc).2.2) (Or.inl (by simp))

theorem readNumber_scientific [Limits] (whole fraction exponent : Text) {rest : Text}
    (hwhole : IsWhole whole) (hdigits : ∀ c ∈ fraction, c.isDigit = true) (hne : exponent ≠ [])
    (hexponent : ∀ c ∈ exponent, c.isDigit = true) (hrest : Delimited rest)
    (negative down : Bool) :
    readNumber (signText negative ++ (whole ++ ((if fraction = [] then [] else
        CodePoint.ofChar '.' :: fraction)
      ++ (Text.ofString (if down then "e-" else "e+") ++ (exponent ++ rest))))) = .ok
      (.real (Binary64.ofDecimal negative (Numeral.value (whole ++ fraction))
        ((if down then -(Numeral.value exponent : ℤ) else Numeral.value exponent)
          - (fraction.length : ℤ))), rest) := by
  have hread := readExponent?_append hne hexponent hrest.noDigit down
  obtain ⟨more, hmark⟩ : ∃ more, Text.ofString (if down then "e-" else "e+") ++ (exponent ++ rest)
      = CodePoint.ofChar 'e' :: more := by
    cases down <;> exact ⟨_, rfl⟩
  rw [hmark] at hread ⊢
  by_cases hempty : fraction = []
  · subst hempty
    rw [if_pos rfl, List.nil_append]
    have hnone : readFraction? (CodePoint.ofChar 'e' :: more) = none :=
      readFraction?_eq_none (by simp; decide)
    exact readNumber_real (readWhole?_append hwhole (noDigit_cons rfl)) hnone hread
      (Or.inr (by simp))
  · rw [if_neg hempty, List.cons_append]
    exact readNumber_real (readWhole?_append hwhole (noDigit_cons rfl))
      (readFraction?_append hempty hdigits (noDigit_cons rfl)) hread (Or.inl (by simp))

/-- A laid out decimal is read as that decimal. -/
theorem readNumber_layout [Limits] (format : RealFormat) {decimal : Decimal}
    (hpos : 0 < decimal.digits) {rest : Text} (hrest : Delimited rest) (negative : Bool) :
    readNumber (signText negative ++ (layout format decimal ++ rest)) = .ok
      (.real (Binary64.ofDecimal negative decimal.digits decimal.exponent), rest) := by
  have hdigits := Numeral.all_isDigit_decimal decimal.digits
  have hvalue := Numeral.value_decimal decimal.digits
  have hwhole := isWhole_decimal decimal.digits
  have hne := Numeral.decimal_ne_nil decimal.digits
  have hlength : 0 < (Numeral.decimal decimal.digits).length := List.length_pos_of_ne_nil hne
  unfold layout
  dsimp only
  generalize hd : Numeral.decimal decimal.digits = digits at *
  set point : ℤ := (digits.length : ℤ) + decimal.exponent with hpoint
  by_cases hplain : (format.lowest ≤ point - 1 && decide (point - 1 < format.tooLarge)) = true
  · rw [if_pos hplain]
    split_ifs with hsmall hlarge
    · -- zeros between the point and the digits
      have hread := readNumber_positional (zeros 1) (zeros (-point).toNat ++ digits) (Or.inl rfl)
        (by simpa using fun _ => hne)
        (isDigit_of_mem_zeros_append hdigits) hrest negative
      have hscale : (0 : ℤ) - ((zeros (-point).toNat ++ digits).length : ℤ) = decimal.exponent := by
        rw [List.length_append, zeros, List.length_replicate]
        omega
      rw [value_zeros_append, value_zeros_append, hvalue, hscale] at hread
      rw [show Text.ofString "0." = zeros 1 ++ [CodePoint.ofChar '.'] from rfl]
      simpa only [List.append_assoc, List.cons_append, List.nil_append] using hread
    · -- zeros between the digits and the point
      have hread := readNumber_positional _ (zeros 1) (hd ▸ isWhole_decimal_append decimal.digits
        (zeros (point - digits.length).toNat) isDigit_of_mem_zeros (Or.inl hpos)) (by simp [zeros])
          isDigit_of_mem_zeros hrest negative
      have hscale :
          ((Numeral.value ((digits ++ zeros (point - digits.length).toNat) ++ zeros 1) : ℕ)
          : ℚ) * 10 ^ (0 - ((zeros 1).length : ℤ)) = decimal.digits * 10 ^ decimal.exponent := by
        have hexponent : point - digits.length = decimal.exponent := by omega
        obtain ⟨k, hk⟩ := Int.eq_ofNat_of_zero_le (show 0 ≤ decimal.exponent by omega)
        rw [hexponent, hk, Numeral.value_append, Numeral.value_append, value_zeros, value_zeros,
          hvalue]
        simp [zeros]
      rw [Binary64.ofDecimal_congr hscale] at hread
      rw [show Text.ofString ".0" = CodePoint.ofChar '.' :: zeros 1 from rfl]
      simpa only [List.append_assoc, List.cons_append] using hread
    · -- the point among the digits
      have hread := readNumber_positional _ (digits.drop point.toNat)
        (hwhole.take point.toNat (by omega)) (by rw [Ne, List.drop_eq_nil_iff]; omega)
        (fun c hc => hdigits c (List.mem_of_mem_drop hc)) hrest negative
      have hscale : (0 : ℤ) - ((digits.length - point.toNat : ℕ) : ℤ) = decimal.exponent := by omega
      rw [List.take_append_drop, hvalue, List.length_drop, hscale] at hread
      rw [show Text.ofString "." = [CodePoint.ofChar '.'] from rfl]
      simpa only [List.append_assoc, List.cons_append, List.nil_append] using hread
  · rw [if_neg hplain]
    set size := Numeral.decimal (point - 1).natAbs with hsize
    have hread := readNumber_scientific _ (digits.drop 1)
      (zeros (format.exponentWidth - size.length) ++ size) (hwhole.take 1 Nat.one_pos)
      (fun c hc => hdigits c (List.mem_of_mem_drop hc))
      (by simpa using fun _ => Numeral.decimal_ne_nil _)
      (isDigit_of_mem_zeros_append (Numeral.all_isDigit_decimal _)) hrest negative
      (decide (point - 1 < 0))
    have hscale : (if decide (point - 1 < 0) = true then -((point - 1).natAbs : ℤ)
        else ((point - 1).natAbs : ℤ)) - ((digits.length - 1 : ℕ) : ℤ) = decimal.exponent := by
      by_cases hdown : point - 1 < 0
      · rw [if_pos (decide_eq_true hdown)]
        omega
      · rw [if_neg (by simpa using hdown)]
        omega
    rw [value_zeros_append, Numeral.value_decimal, List.take_append_drop, hvalue,
      List.length_drop, hscale] at hread
    rw [show Text.ofString "." = [CodePoint.ofChar '.'] from rfl]
    simpa only [List.append_assoc, List.cons_append, List.nil_append, List.drop_eq_nil_iff,
      decide_eq_true_eq] using hread

/-- A written real is read as that real, a value that is not a number apart. -/
theorem readNumber_realText [Limits] {x : Binary64} {negative : Bool} {mantissa : ℕ} {exponent : ℤ}
    (hx : x.shape = .finite negative mantissa exponent) {rest : Text} (hrest : Delimited rest) :
    readNumber (realText x ++ rest) = .ok (.real x, rest) := by
  obtain ⟨hnormal, hbits⟩ := Binary64.eq_signed_of_shape hx
  have htext : realText x = signText negative ++ (if mantissa = 0 then Text.ofString "0.0"
      else layout realFormat (Decimal.shortest mantissa exponent)) := by
    unfold realText
    rw [hx]
    rfl
  rw [htext, List.append_assoc]
  rcases hnormal with ⟨rfl, rfl⟩ | hnormal
  · have hread := readNumber_positional (zeros 1) (zeros 1) (Or.inl rfl)
      (by simp [zeros]) isDigit_of_mem_zeros hrest negative
    rw [if_pos rfl, hbits]
    exact hread
  · have hshortest := Decimal.ofDecimal_shortest hnormal
    have hpos : 0 < (Decimal.shortest mantissa exponent).digits := by
      rw [Nat.pos_iff_ne_zero]
      intro hzero
      have hcode := hshortest false
      rw [hzero] at hcode
      have heq : 0 = Binary64.code mantissa exponent :=
        Binary64.signed_injective (Nat.zero_le _) hnormal.code_lt.le hcode
      have hmantissa := hnormal.pos
      unfold Binary64.code at heq
      omega
    rw [if_neg hnormal.pos.ne', readNumber_layout realFormat hpos hrest, hshortest, ← hbits]

/-! ## Strings -/

theorem hexQuad?_hex {n : ℕ} (hn : n < 0x20) (rest : Text) :
    hexQuad? (Numeral.hex 4 n ++ rest) = some n := by
  have hlength : (Numeral.hex 4 n).length = 4 := by simp [Numeral.hex]
  have hnumber : ∀ n < 0x20, Text.hexNumber? (Numeral.hex 4 n) = some n := by decide
  unfold hexQuad?
  rw [List.take_left' hlength, hlength, if_neg (by omega), hnumber n hn]

theorem readString_escape {opening rest tail left : Text} {letter point : CodePoint}
    (hletter : letter ≠ CodePoint.ofChar 'u') (hpoint : simpleEscape? letter = some point)
    (h : readString opening rest = .ok (tail, left)) :
    readString opening (CodePoint.ofChar '\\' :: letter :: rest) = .ok (point :: tail, left) := by
  rw [readString.eq_def]
  dsimp only
  rw [if_neg (by decide), if_pos rfl, if_neg hletter, hpoint]
  dsimp only
  rw [h]

theorem readString_control {opening rest tail left : Text} {c : CodePoint} (hc : c.val < 0x20)
    (hrest : rest ≠ []) (h : readString opening rest = .ok (tail, left)) :
    readString opening (Text.ofString "\\u" ++ (Numeral.hex 4 c.val ++ rest))
      = .ok (c :: tail, left) := by
  have hlength : (Numeral.hex 4 c.val).length = 4 := by simp [Numeral.hex]
  have hpoint : CodePoint.ofNat c.val = c := by
    apply Fin.ext
    exact Nat.mod_eq_of_lt c.isLt
  have hread : readUnicodeEscape (CodePoint.ofChar 'u' :: (Numeral.hex 4 c.val ++ rest))
      = .ok (c, 4) := by
    have hsurrogate : c.isHighSurrogate = false := by
      simp only [CodePoint.isHighSurrogate, Bool.and_eq_false_iff, decide_eq_false_iff_not]
      omega
    unfold readUnicodeEscape
    simp only [List.drop_succ_cons, List.drop_zero, hexQuad?_hex hc, List.drop_left' hlength,
      hpoint,
      hsurrogate, Bool.false_and, List.isEmpty_iff, hrest, if_false, Bool.false_eq_true]
  rw [show Text.ofString "\\u" = [CodePoint.ofChar '\\', CodePoint.ofChar 'u'] from rfl]
  simp only [List.cons_append, List.nil_append]
  rw [readString.eq_def]
  dsimp only
  rw [if_neg (by decide), if_pos rfl, if_pos rfl, hread]
  dsimp only
  rw [List.drop_left' hlength, h]

/-- The written form of a code point in a string is read as that code point. -/
theorem readString_escaped {opening rest tail left : Text} (c : CodePoint) (hrest : rest ≠ [])
    (h : readString opening rest = .ok (tail, left)) :
    readString opening (escaped c ++ rest) = .ok (c :: tail, left) := by
  unfold escaped
  split_ifs with hquote hslash hnewline hreturn htab hback hfeed hcontrol
  · rw [hquote]
    exact readString_escape (by decide) (by decide) h
  · rw [hslash]
    exact readString_escape (by decide) (by decide) h
  · rw [hnewline]
    exact readString_escape (by decide) (by decide) h
  · rw [hreturn]
    exact readString_escape (by decide) (by decide) h
  · rw [htab]
    exact readString_escape (by decide) (by decide) h
  · rw [show c = CodePoint.ofNat 0x08 from Fin.ext hback]
    exact readString_escape (by decide) (by decide) h
  · rw [show c = CodePoint.ofNat 0x0c from Fin.ext hfeed]
    exact readString_escape (by decide) (by decide) h
  · rw [List.append_assoc]
    exact readString_control hcontrol hrest h
  · rw [List.singleton_append, readString.eq_def]
    dsimp only
    rw [if_neg hquote, if_neg hslash, if_neg hcontrol, h]

/-- A written string is read as that string. -/
theorem readString_quoted (opening s rest : Text) :
    readString opening (s.flatMap escaped ++ (Text.ofString "\"" ++ rest)) = .ok (s, rest) := by
  induction s with
  | nil =>
      rw [List.flatMap_nil, List.nil_append, readString.eq_def]
      rfl
  | cons c s ih =>
      rw [List.flatMap_cons, List.append_assoc]
      exact readString_escaped c (by simp [Text.ofString]) ih

end Json

end MessageKeys
