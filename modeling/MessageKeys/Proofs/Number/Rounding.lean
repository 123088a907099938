import Mathlib.Algebra.Order.Field.Power
import Mathlib.Algebra.Order.Ring.Rat
import Mathlib.Data.Rat.Cast.Order
import Mathlib.Tactic.FieldSimp
import Mathlib.Tactic.Linarith
import Mathlib.Tactic.NormNum
import Mathlib.Tactic.Positivity
import Mathlib.Tactic.Ring
import MessageKeys.Number.Binary64

/-!
# Rounding to double precision

A finite magnitude is `mantissa * 2 ^ exponent` with a mantissa below `2 ^ 53`, and `code` counts
the magnitudes from zero up.  `Binary64.nearest` rounds a fraction in two steps: it finds the
exponent that fits (`fittingExponent_spec`) and rounds the scaled fraction to a whole number.

* The result depends on the value of the fraction, not on how it is written
  (`nearest_congr`).
* A fraction that is close enough to a magnitude is rounded to it (`nearest_of_close`).  Close
  means half a unit in the seventeenth decimal digit, which is less than half the distance to
  the next magnitude on either side.
-/

namespace MessageKeys.Binary64

/-! ## Rounding to whole numbers -/

theorem divideToEven_mul_left {c : ℕ} (hc : 0 < c) (n d : ℕ) :
    divideToEven (c * n) (c * d) = divideToEven n d := by
  have htwice : 2 * (c * n % (c * d)) = c * (2 * (n % d)) := by
    rw [Nat.mul_mod_mul_left]
    ring
  unfold divideToEven
  rw [Nat.mul_div_mul_left n d hc, htwice]
  simp only [Nat.mul_lt_mul_left hc]

/-- Equal fractions are rounded alike. -/
theorem divideToEven_congr {n d n' d' : ℕ} (hd : 0 < d) (hd' : 0 < d') (h : n * d' = n' * d) :
    divideToEven n d = divideToEven n' d' :=
  calc divideToEven n d = divideToEven (d' * n) (d' * d) := (divideToEven_mul_left hd' n d).symm
    _ = divideToEven (d * n') (d * d') := by
        rw [Nat.mul_comm d' n, h, Nat.mul_comm n' d, Nat.mul_comm d' d]
    _ = divideToEven n' d' := divideToEven_mul_left hd n' d'

/-- A fraction less than one half away from a whole number is rounded to it. -/
theorem divideToEven_eq {n d k : ℕ} (hlow : 2 * k * d < 2 * n + d)
    (hhigh : 2 * n < (2 * k + 1) * d) : divideToEven n d = k := by
  have hd : 0 < d := by
    rcases Nat.eq_zero_or_pos d with rfl | hd
    · omega
    · exact hd
  have hrest := Nat.mod_lt n hd
  have hsplit := Nat.div_add_mod n d
  unfold divideToEven
  -- the whole part is the number itself or the one below it
  rcases Nat.lt_trichotomy (n / d) k with hlt | rfl | hgt
  · have hnext : k = n / d + 1 := by
      refine Nat.le_antisymm ?_ hlt
      by_contra hfar
      have hstep : d * (n / d + 2) ≤ d * k := Nat.mul_le_mul_left d (by omega)
      have hlow' : 2 * (d * k) < 2 * n + d := by linarith
      rw [Nat.mul_add] at hstep
      omega
    subst hnext
    have hlow' : 2 * (d * (n / d)) + 2 * d < 2 * n + d := by linarith
    rw [if_neg (by omega), if_pos (by omega)]
  · have hhigh' : 2 * n < 2 * (d * (n / d)) + d := by linarith
    rw [if_pos (by omega)]
  · have hstep : d * (k + 1) ≤ d * (n / d) := Nat.mul_le_mul_left d hgt
    have hhigh' : 2 * n < 2 * (d * k) + d := by linarith
    rw [Nat.mul_add] at hstep
    omega

theorem divideToEven_of_abs_lt {n d k : ℕ} (hd : 0 < d) (h : |(n : ℚ) / d - k| < 1 / 2) :
    divideToEven n d = k := by
  have hd' : (0 : ℚ) < d := by exact_mod_cast hd
  obtain ⟨hlow, hhigh⟩ := abs_lt.mp h
  rw [lt_sub_iff_add_lt, lt_div_iff₀ hd'] at hlow
  rw [sub_lt_iff_lt_add, div_lt_iff₀ hd'] at hhigh
  refine divideToEven_eq ?_ ?_
  · have hlow' : 2 * (k : ℚ) * d < 2 * n + d := by linarith
    exact_mod_cast hlow'
  · have hhigh' : 2 * (n : ℚ) < (2 * k + 1) * d := by linarith
    exact_mod_cast hhigh'

theorem div_le_divideToEven (n d : ℕ) : n / d ≤ divideToEven n d := by
  unfold divideToEven
  dsimp only
  split_ifs <;> omega

/-! ## The exponent that fits -/

/-- The exponent at which a value has a mantissa of 53 bits, or else the least one. -/
structure Fits (q : ℚ) (e : ℤ) : Prop where
  least : -1074 ≤ e
  below : q < 2 ^ (e + 53)
  above : e = -1074 ∨ 2 ^ (e + 52) ≤ q

theorem Fits.unique {q : ℚ} {e e' : ℤ} (h : Fits q e) (h' : Fits q e') : e = e' := by
  have hle : ∀ {e e' : ℤ}, Fits q e → Fits q e' → e' ≤ e := by
    intro e e' h h'
    rcases h'.above with heq | habove
    · rw [heq]
      exact h.least
    · have hlt : (2 : ℚ) ^ (e' + 52) < 2 ^ (e + 53) := lt_of_le_of_lt habove h.below
      rw [zpow_lt_zpow_iff_right₀ one_lt_two] at hlt
      omega
  exact le_antisymm (hle h' h) (hle h h')

/-- The numerator and denominator of `n / d / base ^ e`. -/
def quotient (base n d : ℕ) (e : ℤ) : ℕ × ℕ :=
  if 0 ≤ e then (n, d * Nat.pow base e.toNat) else (n * Nat.pow base (-e).toNat, d)

theorem quotient_spec {base d : ℕ} (hbase : 0 < base) (n : ℕ) (hd : 0 < d) (e : ℤ) :
    0 < (quotient base n d e).2 ∧
      ((quotient base n d e).1 : ℚ) / (quotient base n d e).2 = n / d / base ^ e := by
  unfold quotient
  split
  · rename_i he
    obtain ⟨k, rfl⟩ := Int.eq_ofNat_of_zero_le he
    refine ⟨Nat.mul_pos hd (Nat.pow_pos hbase), ?_⟩
    simp only [Int.toNat_natCast, Nat.pow_eq, Nat.cast_mul, Nat.cast_pow, zpow_natCast]
    rw [div_div]
  · rename_i he
    obtain ⟨k, hk⟩ := Int.eq_ofNat_of_zero_le (show 0 ≤ -e by omega)
    obtain rfl : e = -(k : ℤ) := by omega
    refine ⟨hd, ?_⟩
    simp only [neg_neg, Int.toNat_natCast, Nat.pow_eq, Nat.cast_mul, Nat.cast_pow, zpow_neg,
      zpow_natCast, div_inv_eq_mul]
    ring

theorem scaled_spec {d : ℕ} (n : ℕ) (hd : 0 < d) (e : ℤ) :
    0 < (scaled n d e).2 ∧ ((scaled n d e).1 : ℚ) / (scaled n d e).2 = n / d / 2 ^ e := by
  have hspec := quotient_spec Nat.two_pos n hd e
  rw [Nat.cast_ofNat] at hspec
  exact hspec

theorem log2_bounds {n : ℕ} (hn : 0 < n) :
    (2 : ℚ) ^ (n.log2 : ℤ) ≤ n ∧ (n : ℚ) < 2 ^ ((n.log2 : ℤ) + 1) := by
  have hne : n ≠ 0 := by omega
  refine ⟨?_, ?_⟩
  · rw [zpow_natCast]
    exact_mod_cast Nat.log2_self_le hne
  · rw [show ((n.log2 : ℤ) + 1) = ((n.log2 + 1 : ℕ) : ℤ) by push_cast; rfl, zpow_natCast]
    exact_mod_cast Nat.lt_log2_self

theorem fittingExponent_spec {n d : ℕ} (hn : 0 < n) (hd : 0 < d) :
    Fits ((n : ℚ) / d) (fittingExponent n d) := by
  obtain ⟨hnlow, hnhigh⟩ := log2_bounds hn
  obtain ⟨hdlow, hdhigh⟩ := log2_bounds hd
  have hd' : (0 : ℚ) < d := by exact_mod_cast hd
  set guess : ℤ := (n.log2 : ℤ) - (d.log2 : ℤ) - 52 with hguess
  -- the guess is right or one too large
  have hlow : (2 : ℚ) ^ (guess + 51) < n / d := by
    rw [lt_div_iff₀ hd']
    calc (2 : ℚ) ^ (guess + 51) * d < 2 ^ (guess + 51) * 2 ^ ((d.log2 : ℤ) + 1) := by
          exact mul_lt_mul_of_pos_left hdhigh (by positivity)
      _ = 2 ^ (n.log2 : ℤ) := by
          rw [← zpow_add₀ two_ne_zero]
          congr 1
          omega
      _ ≤ n := hnlow
  have hhigh : (n : ℚ) / d < 2 ^ (guess + 53) := by
    rw [div_lt_iff₀ hd']
    calc (n : ℚ) < 2 ^ ((n.log2 : ℤ) + 1) := hnhigh
      _ = 2 ^ (guess + 53) * 2 ^ (d.log2 : ℤ) := by
          rw [← zpow_add₀ two_ne_zero]
          congr 1
          omega
      _ ≤ 2 ^ (guess + 53) * d := mul_le_mul_of_nonneg_left hdlow (by positivity)
  obtain ⟨hpos, hvalue⟩ := scaled_spec n hd guess
  -- the test in the definition compares the value with `2 ^ (guess + 52)`
  have htest : (scaled n d guess).1 / (scaled n d guess).2 < 2 ^ 52 ↔
      (n : ℚ) / d < 2 ^ (guess + 52) := by
    have hpos' : (0 : ℚ) < (scaled n d guess).2 := by exact_mod_cast hpos
    rw [Nat.div_lt_iff_lt_mul hpos, ← Nat.cast_lt (α := ℚ), Nat.cast_mul, ← div_lt_iff₀ hpos',
      hvalue, div_lt_iff₀ (by positivity), zpow_add₀ two_ne_zero, mul_comm]
    norm_num
  have hfit : ∀ e : ℤ, (n : ℚ) / d < 2 ^ (e + 53) → 2 ^ (e + 52) ≤ (n : ℚ) / d →
      Fits ((n : ℚ) / d) (max e (-1074)) := by
    intro e hbelow habove
    rcases le_total (-1074) e with hle | hle
    · rw [max_eq_left hle]
      exact ⟨hle, hbelow, Or.inr habove⟩
    · rw [max_eq_right hle]
      refine ⟨le_refl _, lt_of_lt_of_le hbelow ?_, Or.inl rfl⟩
      exact zpow_le_zpow_right₀ one_le_two (by omega)
  have hunfold : fittingExponent n d = max (if (scaled n d guess).1 / (scaled n d guess).2 < 2 ^ 52
      then guess - 1 else guess) (-1074) := rfl
  rw [hunfold]
  split
  · rename_i hsmall
    refine hfit _ ?_ ?_
    · rw [show guess - 1 + 53 = guess + 52 by ring]
      exact htest.mp hsmall
    · rw [show guess - 1 + 52 = guess + 51 by ring]
      exact hlow.le
  · rename_i hlarge
    exact hfit guess hhigh (not_lt.mp (mt htest.mpr hlarge))

/-! ## Rounding fractions -/

/-- The place of a rounded fraction among the magnitudes. -/
def magnitude (n d : ℕ) : ℕ :=
  let e := fittingExponent n d
  (e + 1074).toNat * 2 ^ 52 + divideToEven (scaled n d e).1 (scaled n d e).2

theorem nearest_zero (negative : Bool) (d : ℕ) : nearest negative 0 d = zero negative := by
  simp only [nearest, if_true]

theorem nearest_eq {n : ℕ} (hn : 0 < n) (d : ℕ) (negative : Bool) :
    nearest negative n d = signed negative (min (magnitude n d) infinityBits) := by
  have hunfold : nearest negative n d = if infinityBits ≤ magnitude n d then infinity negative
      else signed negative (magnitude n d) := by
    unfold nearest
    rw [if_neg (by omega)]
    rfl
  rw [hunfold]
  split
  · rename_i hle
    rw [min_eq_right hle]
    rfl
  · rename_i hlt
    rw [min_eq_left (by omega)]

/-- The magnitude of a fraction, once its exponent is known. -/
theorem magnitude_eq {n d : ℕ} {e : ℤ} (hn : 0 < n) (hd : 0 < d) (hfits : Fits ((n : ℚ) / d) e) :
    magnitude n d
      = (e + 1074).toNat * 2 ^ 52 + divideToEven (scaled n d e).1 (scaled n d e).2 := by
  rw [← (fittingExponent_spec hn hd).unique hfits]
  rfl

theorem magnitude_of_abs_lt {n d k : ℕ} {e : ℤ} (hn : 0 < n) (hd : 0 < d)
    (hfits : Fits ((n : ℚ) / d) e) (hnear : |(n : ℚ) / d - k * 2 ^ e| < 2 ^ e / 2) :
    magnitude n d = (e + 1074).toNat * 2 ^ 52 + k := by
  obtain ⟨hpos, hvalue⟩ := scaled_spec n hd e
  have hpow : (0 : ℚ) < 2 ^ e := by positivity
  rw [magnitude_eq hn hd hfits, divideToEven_of_abs_lt hpos ?_]
  calc |((scaled n d e).1 : ℚ) / (scaled n d e).2 - k|
      = |(n : ℚ) / d - k * 2 ^ e| / 2 ^ e := by
        rw [hvalue, div_sub' hpow.ne', abs_div, abs_of_pos hpow, mul_comm (k : ℚ)]
    _ < 2 ^ e / 2 / 2 ^ e := div_lt_div_of_pos_right hnear hpow
    _ = 1 / 2 := by field_simp

/-- Rounding depends on the value of a fraction alone. -/
theorem nearest_congr {n d n' d' : ℕ} (hd : 0 < d) (hd' : 0 < d') (h : (n : ℚ) / d = n' / d')
    (negative : Bool) : nearest negative n d = nearest negative n' d' := by
  rw [div_eq_div_iff (by positivity) (by positivity)] at h
  norm_cast at h
  rcases Nat.eq_zero_or_pos n with rfl | hn
  · obtain rfl : n' = 0 := by
      rw [Nat.zero_mul, eq_comm, Nat.mul_eq_zero] at h
      omega
    rw [nearest_zero, nearest_zero]
  · have hn' : 0 < n' := by
      have hprod : 0 < n' * d := h ▸ Nat.mul_pos hn hd'
      exact Nat.pos_of_mul_pos_right hprod
    have hvalue : (n : ℚ) / d = n' / d' := by
      rw [div_eq_div_iff (by positivity) (by positivity)]
      exact_mod_cast h
    have hfits := fittingExponent_spec hn' hd'
    obtain ⟨hpos, hscaled⟩ := scaled_spec n hd (fittingExponent n' d')
    obtain ⟨hpos', hscaled'⟩ := scaled_spec n' hd' (fittingExponent n' d')
    have hround : divideToEven (scaled n d (fittingExponent n' d')).1
        (scaled n d (fittingExponent n' d')).2 = divideToEven
        (scaled n' d' (fittingExponent n' d')).1 (scaled n' d' (fittingExponent n' d')).2 := by
      refine divideToEven_congr hpos hpos' ?_
      rw [hvalue, ← hscaled', div_eq_div_iff (by positivity) (by positivity)] at hscaled
      exact_mod_cast hscaled
    rw [nearest_eq hn, nearest_eq hn', magnitude_eq hn hd (hvalue ▸ hfits),
      magnitude_eq hn' hd' hfits, hround]

/-! ## Magnitudes -/

/-- A mantissa and an exponent as a positive finite value has them. -/
structure Normal (m : ℕ) (e : ℤ) : Prop where
  pos : 0 < m
  lt : m < 2 ^ 53
  least : -1074 ≤ e
  most : e ≤ 971
  full : e = -1074 ∨ 2 ^ 52 ≤ m

/-- The place of a value among the magnitudes. -/
def code (m : ℕ) (e : ℤ) : ℕ :=
  (e + 1074).toNat * 2 ^ 52 + m

theorem Normal.code_lt {m : ℕ} {e : ℤ} (h : Normal m e) : code m e < infinityBits := by
  have hlt := h.lt
  have hexponent : (e + 1074).toNat ≤ 2045 := by
    have := h.most
    omega
  have hmul := Nat.mul_le_mul_right (2 ^ 52) hexponent
  unfold code infinityBits
  simp only [Nat.pow_eq]
  omega

/-- A fraction that differs from a value by at most half a unit in its seventeenth digit is
rounded to it. -/
theorem nearest_of_close {m n d : ℕ} {e : ℤ} (h : Normal m e) (hn : 0 < n) (hd : 0 < d)
    (hclose : |(n : ℚ) / d - m * 2 ^ e| ≤ m * 2 ^ e / (2 * 10 ^ 16)) (negative : Bool) :
    nearest negative n d = signed negative (code m e) := by
  suffices hmagnitude : magnitude n d = code m e by
    rw [nearest_eq hn, hmagnitude, min_eq_left h.code_lt.le]
  have hpow : (0 : ℚ) < 2 ^ e := by positivity
  have hmlt : (m : ℚ) < 9007199254740992 := by exact_mod_cast h.lt
  have hlow := (abs_le.mp hclose).1
  have hhigh := (abs_le.mp hclose).2
  have hbelow : (n : ℚ) / d < 2 ^ (e + 53) := by
    have hstep : (m : ℚ) + 1 ≤ 9007199254740992 := by exact_mod_cast h.lt
    rw [zpow_add₀ two_ne_zero]
    norm_num at hhigh ⊢
    nlinarith
  by_cases habove : e = -1074 ∨ (2 : ℚ) ^ (e + 52) ≤ (n : ℚ) / d
  · refine magnitude_of_abs_lt hn hd ⟨h.least, hbelow, habove⟩ (lt_of_le_of_lt hclose ?_)
    norm_num
    nlinarith
  · -- the fraction is below the power of two that the value is, with the next smaller exponent
    obtain ⟨hleast, hsmall⟩ := not_or.mp habove
    rw [not_le, zpow_add₀ two_ne_zero] at hsmall
    have hfull : 4503599627370496 ≤ m := h.full.resolve_left hleast
    have hm : m = 4503599627370496 := by
      refine Nat.le_antisymm (Nat.lt_succ_iff.mp ?_) hfull
      by_contra hge
      have hge' : (4503599627370497 : ℚ) ≤ m := by exact_mod_cast not_lt.mp hge
      norm_num at hsmall hlow
      nlinarith
    have hsplit : (2 : ℚ) ^ e = 2 * 2 ^ (e - 1) := by
      rw [← zpow_one_add₀ two_ne_zero]
      congr 1
      ring
    have hfits : Fits ((n : ℚ) / d) (e - 1) := by
      refine ⟨?_, ?_, Or.inr ?_⟩
      · have := h.least
        omega
      · rw [show e - 1 + 53 = e + 52 by ring, zpow_add₀ two_ne_zero]
        exact hsmall
      · rw [hsplit, hm] at hlow
        rw [zpow_add₀ two_ne_zero]
        norm_num at hlow ⊢
        linarith [show (0 : ℚ) < 2 ^ (e - 1) by positivity]
    rw [magnitude_of_abs_lt (k := 2 * m) hn hd hfits ?_]
    · have := h.least
      unfold code
      omega
    · push_cast
      rw [mul_right_comm, ← hsplit, mul_comm ((2 : ℚ) ^ e)]
      refine lt_of_le_of_lt hclose ?_
      rw [hm, hsplit]
      norm_num
      linarith [show (0 : ℚ) < 2 ^ (e - 1) by positivity]

theorem fraction_spec (m : ℕ) (e : ℤ) :
    0 < (fraction m e).2 ∧ ((fraction m e).1 : ℚ) / (fraction m e).2 = m * 2 ^ e := by
  unfold fraction
  split
  · rename_i he
    obtain ⟨k, rfl⟩ := Int.eq_ofNat_of_zero_le he
    exact ⟨Nat.one_pos, by simp⟩
  · rename_i he
    obtain ⟨k, hk⟩ := Int.eq_ofNat_of_zero_le (show 0 ≤ -e by omega)
    obtain rfl : e = -(k : ℤ) := by omega
    exact ⟨Nat.pow_pos Nat.two_pos, by simp [div_eq_mul_inv]⟩

/-! ## Decimals -/

theorem two_zpow_le_ten_zpow (k : ℕ) : (2 : ℚ) ^ (3 * k) ≤ 10 ^ k := by
  rw [pow_mul]
  exact pow_le_pow_left₀ (by norm_num) (by norm_num) k

/-- A value below half the least magnitude is rounded to zero. -/
theorem nearest_of_tiny {n d : ℕ} (hn : 0 < n) (hd : 0 < d) (h : (n : ℚ) / d < 10 ^ (-400 : ℤ))
    (negative : Bool) : nearest negative n d = zero negative := by
  have hvalue : (0 : ℚ) < (n : ℚ) / d := by positivity
  have htiny : (n : ℚ) / d < 2 ^ (-1075 : ℤ) := by
    refine lt_of_lt_of_le h ?_
    rw [zpow_neg, zpow_neg]
    refine inv_anti₀ (by positivity) ?_
    calc (2 : ℚ) ^ (1075 : ℤ) ≤ 2 ^ ((3 * 400 : ℕ) : ℤ) :=
          zpow_le_zpow_right₀ one_le_two (by norm_num)
      _ ≤ 10 ^ (400 : ℤ) := by
          rw [zpow_natCast]
          exact two_zpow_le_ten_zpow 400
  have hfits : Fits ((n : ℚ) / d) (-1074) :=
    ⟨le_refl _, htiny.trans_le (zpow_le_zpow_right₀ one_le_two (by norm_num)), Or.inl rfl⟩
  have hhalf : (2 : ℚ) ^ (-1074 : ℤ) / 2 = 2 ^ (-1075 : ℤ) := by
    rw [div_eq_mul_inv, ← zpow_sub_one₀ two_ne_zero]
    norm_num
  have hmagnitude : magnitude n d = 0 := by
    rw [magnitude_of_abs_lt (k := 0) hn hd hfits ?_]
    · rfl
    · rw [hhalf, Nat.cast_zero, zero_mul, sub_zero, abs_of_pos hvalue]
      exact htiny
  rw [nearest_eq hn, hmagnitude, Nat.zero_min]
  rfl

/-- A value beyond every finite magnitude is rounded to infinity. -/
theorem nearest_of_huge {n d : ℕ} (hn : 0 < n) (hd : 0 < d) (h : 10 ^ (400 : ℤ) ≤ (n : ℚ) / d)
    (negative : Bool) : nearest negative n d = infinity negative := by
  have hfits := fittingExponent_spec hn hd
  obtain ⟨hpos, hvalue⟩ := scaled_spec n hd (fittingExponent n d)
  have hexponent : 972 ≤ fittingExponent n d := by
    have hlt : (2 : ℚ) ^ (1024 : ℤ) < 2 ^ (fittingExponent n d + 53) :=
      calc (2 : ℚ) ^ (1024 : ℤ) ≤ 2 ^ ((3 * 400 : ℕ) : ℤ) :=
            zpow_le_zpow_right₀ one_le_two (by norm_num)
        _ ≤ 10 ^ (400 : ℤ) := by
            rw [zpow_natCast]
            exact two_zpow_le_ten_zpow 400
        _ ≤ (n : ℚ) / d := h
        _ < _ := hfits.below
    rw [zpow_lt_zpow_iff_right₀ one_lt_two] at hlt
    omega
  -- at this exponent the mantissa has 53 bits
  have hmantissa : 2 ^ 52 ≤ divideToEven (scaled n d (fittingExponent n d)).1
      (scaled n d (fittingExponent n d)).2 := by
    refine le_trans ?_ (div_le_divideToEven _ _)
    have hfull := hfits.above.resolve_left (by omega)
    rw [Nat.le_div_iff_mul_le hpos]
    rw [zpow_add₀ two_ne_zero, mul_comm, ← le_div_iff₀ (by positivity), ← hvalue,
      le_div_iff₀ (by exact_mod_cast hpos)] at hfull
    exact_mod_cast hfull
  have hmagnitude : infinityBits ≤ magnitude n d := by
    have hmul : 2046 * 2 ^ 52 ≤ (fittingExponent n d + 1074).toNat * 2 ^ 52 :=
      Nat.mul_le_mul_right _ (by omega)
    rw [magnitude_eq hn hd hfits]
    unfold infinityBits
    simp only [Nat.pow_eq]
    omega
  rw [nearest_eq hn, min_eq_right hmagnitude]
  rfl

/-- The digits of a number are fewer than a third of its bits and one. -/
theorem lt_ten_pow_log2 (digits : ℕ) : (digits : ℚ) < 10 ^ (digits.log2 / 3 + 1) := by
  have hbits : digits < 2 ^ (3 * (digits.log2 / 3 + 1)) :=
    Nat.lt_log2_self.trans_le (Nat.pow_le_pow_right (by norm_num) (by omega))
  calc (digits : ℚ) < 2 ^ (3 * (digits.log2 / 3 + 1)) := by exact_mod_cast hbits
    _ ≤ 10 ^ (digits.log2 / 3 + 1) := two_zpow_le_ten_zpow _

/-- The shortcuts for extreme exponents agree with rounding: a decimal is read as the value
nearest to it. -/
theorem ofDecimal_eq_nearest {digits n d : ℕ} {exponent : ℤ} (hd : 0 < d)
    (hvalue : (digits : ℚ) * 10 ^ exponent = n / d) (negative : Bool) :
    ofDecimal negative digits exponent = nearest negative n d := by
  have hten : (0 : ℚ) < 10 ^ exponent := by positivity
  rcases Nat.eq_zero_or_pos digits with rfl | hdigits
  · obtain rfl : n = 0 := by
      rw [Nat.cast_zero, zero_mul, eq_comm, div_eq_zero_iff] at hvalue
      have hd' : (d : ℚ) ≠ 0 := by positivity
      exact_mod_cast hvalue.resolve_right hd'
    rw [nearest_zero]
    simp only [ofDecimal, if_true]
  · have hpos : (0 : ℚ) < n / d := by
      rw [← hvalue]
      positivity
    have hn : 0 < n := by
      rcases Nat.eq_zero_or_pos n with rfl | hn
      · simp at hpos
      · exact hn
    have hone : (1 : ℚ) ≤ digits := by exact_mod_cast hdigits
    unfold ofDecimal
    rw [if_neg (by omega)]
    split_ifs with hlarge hsmall hexponent
    · refine (nearest_of_huge hn hd ?_ negative).symm
      rw [← hvalue]
      calc (10 : ℚ) ^ (400 : ℤ) ≤ 10 ^ exponent := zpow_le_zpow_right₀ (by norm_num) hlarge.le
        _ ≤ digits * 10 ^ exponent := le_mul_of_one_le_left hten.le hone
    · refine (nearest_of_tiny hn hd ?_ negative).symm
      rw [← hvalue]
      calc (digits : ℚ) * 10 ^ exponent
          < 10 ^ (digits.log2 / 3 + 1) * 10 ^ exponent :=
            mul_lt_mul_of_pos_right (lt_ten_pow_log2 digits) hten
        _ = 10 ^ (exponent + ((digits.log2 / 3 + 1 : ℕ) : ℤ)) := by
            rw [← zpow_natCast, ← zpow_add₀ (by norm_num), add_comm]
        _ ≤ 10 ^ (-400 : ℤ) := zpow_le_zpow_right₀ (by norm_num) hsmall.le
    · obtain ⟨k, rfl⟩ := Int.eq_ofNat_of_zero_le hexponent
      refine nearest_congr Nat.one_pos hd ?_ negative
      rw [← hvalue]
      simp
    · obtain ⟨k, hk⟩ := Int.eq_ofNat_of_zero_le (show 0 ≤ -exponent by omega)
      obtain rfl : exponent = -(k : ℤ) := by omega
      refine nearest_congr (Nat.pos_of_ne_zero (by simp)) hd ?_ negative
      rw [← hvalue]
      simp [div_eq_mul_inv]

theorem exists_fraction (digits : ℕ) (exponent : ℤ) :
    ∃ n d : ℕ, 0 < d ∧ (digits : ℚ) * 10 ^ exponent = n / d := by
  obtain ⟨hpos, hvalue⟩ := quotient_spec (show 0 < 10 by norm_num) digits Nat.one_pos (-exponent)
  refine ⟨(quotient 10 digits 1 (-exponent)).1, _, hpos, ?_⟩
  rw [hvalue, zpow_neg, Nat.cast_one, div_one, div_inv_eq_mul, Nat.cast_ofNat]

/-- Decimals of equal value are read alike. -/
theorem ofDecimal_congr {digits digits' : ℕ} {exponent exponent' : ℤ}
    (h : (digits : ℚ) * 10 ^ exponent = digits' * 10 ^ exponent') (negative : Bool) :
    ofDecimal negative digits exponent = ofDecimal negative digits' exponent' := by
  obtain ⟨n, d, hd, hvalue⟩ := exists_fraction digits exponent
  rw [ofDecimal_eq_nearest hd hvalue, ofDecimal_eq_nearest hd (h.symm.trans hvalue)]

theorem ofDecimal_of_close {m digits : ℕ} {e exponent : ℤ} (h : Normal m e)
    (hclose : |(digits : ℚ) * 10 ^ exponent - m * 2 ^ e| ≤ m * 2 ^ e / (2 * 10 ^ 16))
    (negative : Bool) : ofDecimal negative digits exponent = signed negative (code m e) := by
  obtain ⟨n, d, hd, hvalue⟩ := exists_fraction digits exponent
  rw [hvalue] at hclose
  have hm : (0 : ℚ) < m := by exact_mod_cast h.pos
  have hn : 0 < n := by
    rcases Nat.eq_zero_or_pos n with rfl | hn
    · have hpos : (0 : ℚ) < m * 2 ^ e := by positivity
      rw [Nat.cast_zero, zero_div, zero_sub, abs_neg, abs_of_pos hpos] at hclose
      norm_num at hclose
      linarith
    · exact hn
  rw [ofDecimal_eq_nearest hd hvalue, nearest_of_close h hn hd hclose]

/-! ## Bit patterns -/

theorem toNat_signed (negative : Bool) {c : ℕ} (h : c ≤ infinityBits) :
    (signed negative c).bits.toNat = if negative then c + 2 ^ 63 else c := by
  have hlt : c < 2 ^ 63 := lt_of_le_of_lt h (by decide)
  unfold signed
  rw [UInt64.toNat_ofNat']
  apply Nat.mod_eq_of_lt
  simp only [Nat.pow_eq]
  split_ifs <;> omega

theorem signed_injective {negative : Bool} {c c' : ℕ} (h : c ≤ infinityBits)
    (h' : c' ≤ infinityBits) (heq : signed negative c = signed negative c') : c = c' := by
  have hbits : (signed negative c).bits.toNat = (signed negative c').bits.toNat := by rw [heq]
  rw [toNat_signed negative h, toNat_signed negative h'] at hbits
  split_ifs at hbits <;> omega

theorem eq_signed_of_toNat {x : Binary64} {negative : Bool} {c : ℕ} (hc : c ≤ infinityBits)
    (h : x.bits.toNat = if negative then c + 2 ^ 63 else c) : x = signed negative c := by
  obtain ⟨bits⟩ := x
  congr 1
  rw [← UInt64.toNat_inj]
  exact h.trans (toNat_signed negative hc).symm

theorem exists_ofDecimal_eq (digits : ℕ) (exponent : ℤ) : ∃ c ≤ infinityBits,
    ∀ negative, ofDecimal negative digits exponent = signed negative c := by
  obtain ⟨n, d, hd, hvalue⟩ := exists_fraction digits exponent
  rcases Nat.eq_zero_or_pos n with rfl | hn
  · refine ⟨0, Nat.zero_le _, fun negative => ?_⟩
    rw [ofDecimal_eq_nearest hd hvalue, nearest_zero]
    rfl
  · refine ⟨min (magnitude n d) infinityBits, min_le_right _ _, fun negative => ?_⟩
    rw [ofDecimal_eq_nearest hd hvalue, nearest_eq hn]

/-- The magnitude that a decimal is read as does not depend on the sign. -/
theorem ofDecimal_sign {digits c : ℕ} {exponent : ℤ} (hc : c ≤ infinityBits)
    (h : ofDecimal false digits exponent = signed false c) (negative : Bool) :
    ofDecimal negative digits exponent = signed negative c := by
  obtain ⟨c', hc', hread⟩ := exists_ofDecimal_eq digits exponent
  obtain rfl : c' = c := signed_injective hc' hc ((hread false).symm.trans h)
  exact hread negative

theorem eq_signed_of_mod {x : Binary64} (h : x.bits.toNat % 2 ^ 63 ≤ infinityBits) :
    x = signed (decide (2 ^ 63 ≤ x.bits.toNat)) (x.bits.toNat % 2 ^ 63) := by
  have hbits := x.bits.toNat_lt
  refine eq_signed_of_toNat h ?_
  by_cases hsign : 2 ^ 63 ≤ x.bits.toNat
  · rw [if_pos (decide_eq_true hsign)]
    omega
  · rw [decide_eq_false hsign, if_neg Bool.false_ne_true]
    omega

/-- The bit pattern of a finite value is its sign and its place among the magnitudes. -/
theorem eq_signed_of_shape {x : Binary64} {negative : Bool} {m : ℕ} {e : ℤ}
    (h : x.shape = .finite negative m e) :
    (m = 0 ∧ e = -1074 ∨ Normal m e) ∧ x = signed negative (code m e) := by
  have hinfinity : infinityBits = 2047 * 2 ^ 52 := rfl
  have hbits := x.bits.toNat_lt
  unfold shape at h
  simp only [Nat.pow_eq] at h
  split_ifs at h with hspecial hzero hfield
  · obtain ⟨rfl, rfl, rfl⟩ := Shape.finite.inj h
    refine ⟨?_, (eq_signed_of_mod (by omega)).trans ?_⟩
    · rcases Nat.eq_zero_or_pos (x.bits.toNat % 2 ^ 63 % 2 ^ 52) with hm | hm
      · exact Or.inl ⟨hm, rfl⟩
      · exact Or.inr ⟨hm, by omega, by omega, by omega, Or.inl rfl⟩
    · congr 1
      unfold code
      omega
  · obtain ⟨rfl, rfl, rfl⟩ := Shape.finite.inj h
    refine ⟨Or.inr ⟨by omega, by omega, by omega, by omega, Or.inr (by omega)⟩,
      (eq_signed_of_mod (by omega)).trans ?_⟩
    congr 1
    unfold code
    omega

theorem eq_infinity_of_shape {x : Binary64} {negative : Bool} (h : x.shape = .infinite negative) :
    x = infinity negative := by
  have hinfinity : infinityBits = 2047 * 2 ^ 52 := rfl
  have hbits := x.bits.toNat_lt
  unfold shape at h
  simp only [Nat.pow_eq] at h
  split_ifs at h with hspecial hfraction
  · obtain rfl := Shape.infinite.inj h
    have hmagnitude : x.bits.toNat % 2 ^ 63 = infinityBits := by omega
    rw [infinity, ← hmagnitude]
    exact eq_signed_of_mod hmagnitude.le

theorem shape_signed_ne_notANumber {negative : Bool} {c : ℕ} (hc : c ≤ infinityBits) :
    (signed negative c).shape ≠ .notANumber := by
  have hinfinity : infinityBits = 2047 * 2 ^ 52 := rfl
  have hmagnitude : (signed negative c).bits.toNat % 2 ^ 63 = c := by
    rw [toNat_signed negative hc]
    split_ifs <;> omega
  unfold shape
  simp only [Nat.pow_eq, hmagnitude]
  split_ifs with hspecial hfraction hzero
  · exact Shape.noConfusion
  · omega
  · exact Shape.noConfusion
  · exact Shape.noConfusion

end MessageKeys.Binary64
