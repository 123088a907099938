import Mathlib.Data.Nat.Cast.Order.Field
import MessageKeys.Number.Shortest
import MessageKeys.Proofs.Number.Rounding

/-!
# Shortest decimals read back

`Decimal.shortest` looks for a multiple of a power of ten beside a value that is read as the
value, on finer and finer grids.  On the grid with seventeen digits the nearer neighbour is half
a unit away at most, so the search always ends (`onGrid?_isSome`), and whatever it finds is read
as the value (`ofDecimal_shortest`): dropping zeros afterwards does not change what is written.
-/

namespace MessageKeys

namespace Numeral

/-- A numeral of `k + 1` digits stands for a number from `10 ^ k` to `10 ^ (k + 1)`. -/
theorem length_decimal_spec {n : ℕ} (hn : 0 < n) :
    ∃ k, (decimal n).length = k + 1 ∧ 10 ^ k ≤ n ∧ n < 10 ^ (k + 1) := by
  fun_induction decimal n with
  | case1 n h => exact ⟨0, rfl, by omega, by omega⟩
  | case2 n h ih =>
      obtain ⟨k, hlength, hlow, hhigh⟩ := ih (by omega)
      refine ⟨k + 1, ?_, ?_, ?_⟩
      · rw [List.length_append, hlength, List.length_singleton]
      · rw [pow_succ]
        omega
      · rw [pow_succ]
        omega

end Numeral

namespace Decimal

/-- The value of a decimal. -/
def toRat (decimal : Decimal) : ℚ :=
  decimal.digits * 10 ^ decimal.exponent

/-! ## The position of the point -/

theorem ten_zpow_le_div_iff {n d : ℕ} (hd : 0 < d) (e : ℤ) :
    (10 : ℚ) ^ e ≤ n / d ↔ (if 0 ≤ e then decide (d * Nat.pow 10 e.toNat ≤ n)
      else decide (d ≤ n * Nat.pow 10 (-e).toNat)) = true := by
  have hd' : (0 : ℚ) < d := by exact_mod_cast hd
  rw [le_div_iff₀ hd']
  split
  · rename_i he
    obtain ⟨k, rfl⟩ := Int.eq_ofNat_of_zero_le he
    rw [decide_eq_true_iff, ← Nat.cast_le (α := ℚ), mul_comm]
    simp
  · rename_i he
    obtain ⟨k, hk⟩ := Int.eq_ofNat_of_zero_le (show 0 ≤ -e by omega)
    obtain rfl : e = -(k : ℤ) := by omega
    have hpow : (0 : ℚ) < 10 ^ k := by positivity
    rw [decide_eq_true_iff, ← Nat.cast_le (α := ℚ), zpow_neg, zpow_natCast, inv_mul_le_iff₀ hpow,
      mul_comm]
    simp

theorem pointPosition_spec {n d : ℕ} (hn : 0 < n) (hd : 0 < d) :
    (10 : ℚ) ^ (pointPosition n d - 1) ≤ n / d ∧ (n : ℚ) / d < 10 ^ pointPosition n d := by
  obtain ⟨a, ha, hnlow, hnhigh⟩ := Numeral.length_decimal_spec hn
  obtain ⟨b, hb, hdlow, hdhigh⟩ := Numeral.length_decimal_spec hd
  have hd' : (0 : ℚ) < d := by exact_mod_cast hd
  have hten : (10 : ℚ) ≠ 0 := by norm_num
  -- numbers of equally many digits are less than a factor of ten apart
  have hlow : (10 : ℚ) ^ ((a : ℤ) - b - 1) ≤ n / d := by
    rw [le_div_iff₀ hd']
    calc (10 : ℚ) ^ ((a : ℤ) - b - 1) * d ≤ 10 ^ ((a : ℤ) - b - 1) * 10 ^ ((b + 1 : ℕ) : ℤ) := by
          refine mul_le_mul_of_nonneg_left ?_ (by positivity)
          rw [zpow_natCast]
          exact_mod_cast hdhigh.le
      _ = 10 ^ (a : ℤ) := by
          rw [← zpow_add₀ hten]
          congr 1
          push_cast
          ring
      _ ≤ n := by
          rw [zpow_natCast]
          exact_mod_cast hnlow
  have hhigh : (n : ℚ) / d < 10 ^ ((a : ℤ) - b + 1) := by
    rw [div_lt_iff₀ hd']
    calc (n : ℚ) < 10 ^ ((a + 1 : ℕ) : ℤ) := by
          rw [zpow_natCast]
          exact_mod_cast hnhigh
      _ = 10 ^ ((a : ℤ) - b + 1) * 10 ^ (b : ℤ) := by
          rw [← zpow_add₀ hten]
          congr 1
          push_cast
          ring
      _ ≤ 10 ^ ((a : ℤ) - b + 1) * d := by
          refine mul_le_mul_of_nonneg_left ?_ (by positivity)
          rw [zpow_natCast]
          exact_mod_cast hdlow
  have hguess : ((Numeral.decimal n).length : ℤ) - ((Numeral.decimal d).length : ℤ)
      = (a : ℤ) - b := by
    rw [ha, hb]
    push_cast
    ring
  have hreached := ten_zpow_le_div_iff (n := n) hd ((a : ℤ) - b)
  unfold pointPosition
  dsimp only
  rw [hguess]
  generalize (if 0 ≤ (a : ℤ) - b then decide (d * Nat.pow 10 ((a : ℤ) - b).toNat ≤ n)
    else decide (d ≤ n * Nat.pow 10 (-((a : ℤ) - b)).toNat)) = reached at hreached
  cases reached with
  | true =>
      rw [if_pos rfl, add_sub_cancel_right]
      exact ⟨hreached.mpr rfl, hhigh⟩
  | false =>
      rw [if_neg Bool.false_ne_true]
      exact ⟨hlow, not_le.mp (mt hreached.mp Bool.false_ne_true)⟩

/-! ## Neighbours on a grid -/

theorem onGrid?_spec {x : Binary64} {n d : ℕ} {e : ℤ} {found : Decimal}
    (h : onGrid? x n d e = some found) :
    found.exponent = e ∧ Binary64.ofDecimal false found.digits e = x := by
  unfold onGrid? at h
  generalize (if 0 ≤ e then (n, d * Nat.pow 10 e.toNat)
    else (n * Nat.pow 10 (-e).toNat, d)) = p at h
  simp only [beq_iff_eq, Bool.and_eq_true] at h
  split_ifs at h with hboth hnear hbelow habove
  · obtain rfl := Option.some.inj h
    exact ⟨rfl, hboth.1⟩
  · obtain rfl := Option.some.inj h
    exact ⟨rfl, hboth.2⟩
  · obtain rfl := Option.some.inj h
    exact ⟨rfl, hbelow⟩
  · obtain rfl := Option.some.inj h
    exact ⟨rfl, habove⟩

/-- The search succeeds on a grid if one of the two neighbours reads back. -/
theorem onGrid?_isSome_of_reads {x : Binary64} {n d : ℕ} {e : ℤ} {p : ℕ × ℕ}
    (hp : p = Binary64.quotient 10 n d e)
    (h : Binary64.ofDecimal false (p.1 / p.2) e = x ∨
      Binary64.ofDecimal false (p.1 / p.2 + 1) e = x) : (onGrid? x n d e).isSome := by
  have hpair : (if 0 ≤ e then (n, d * Nat.pow 10 e.toNat)
      else (n * Nat.pow 10 (-e).toNat, d)) = p := hp.symm
  unfold onGrid?
  rw [hpair]
  simp only [beq_iff_eq, Bool.and_eq_true]
  split_ifs with hboth hnear hbelow habove
  · rfl
  · rfl
  · rfl
  · rfl
  · exact absurd h (not_or.mpr ⟨hbelow, habove⟩)

/-- One of two neighbouring whole numbers is at most one half away. -/
theorem abs_sub_div_le_half (n : ℕ) {d : ℕ} (hd : 0 < d) :
    |((n / d : ℕ) : ℚ) - n / d| ≤ 1 / 2 ∨ |((n / d + 1 : ℕ) : ℚ) - n / d| ≤ 1 / 2 := by
  have hd' : (0 : ℚ) < d := by exact_mod_cast hd
  have hlow : ((n / d : ℕ) : ℚ) ≤ n / d := Nat.cast_div_le
  have hhigh : (n : ℚ) / d < ((n / d : ℕ) : ℚ) + 1 := by
    rw [div_lt_iff₀ hd']
    exact_mod_cast Nat.lt_mul_of_div_lt (Nat.lt_succ_self (n / d)) hd
  by_cases hhalf : (n : ℚ) / d - ((n / d : ℕ) : ℚ) ≤ 1 / 2
  · left
    rw [abs_le]
    constructor <;> linarith
  · right
    push_cast
    rw [abs_le]
    constructor <;> linarith

/-- On a grid of seventeen digits the search succeeds. -/
theorem onGrid?_isSome {m n d : ℕ} {e : ℤ} (h : Binary64.Normal m e) (hn : 0 < n) (hd : 0 < d)
    (hvalue : (n : ℚ) / d = m * 2 ^ e) :
    (onGrid? (Binary64.signed false (Binary64.code m e)) n d (pointPosition n d - 17)).isSome := by
  set k := pointPosition n d - 17 with hk
  obtain ⟨hpos, hquotient⟩ := Binary64.quotient_spec (show 0 < 10 by norm_num) n hd k
  rw [Nat.cast_ofNat, hvalue] at hquotient
  have hgrid : (0 : ℚ) < 10 ^ k := by positivity
  -- seventeen digits: a step of the grid is at most `10 ^ -16` of the value
  have hstep : (10 : ℚ) ^ k * 10 ^ 16 ≤ m * 2 ^ e := by
    rw [← hvalue]
    refine le_of_eq_of_le ?_ (pointPosition_spec hn hd).1
    rw [hk, ← zpow_natCast, ← zpow_add₀ (by norm_num)]
    congr 1
    push_cast
    ring
  have hreads : ∀ j : ℕ, |(j : ℚ) - m * 2 ^ e / 10 ^ k| ≤ 1 / 2 →
      Binary64.ofDecimal false j k = Binary64.signed false (Binary64.code m e) := by
    intro j hj
    refine Binary64.ofDecimal_of_close h ?_ false
    calc |(j : ℚ) * 10 ^ k - m * 2 ^ e|
        = |(j : ℚ) - m * 2 ^ e / 10 ^ k| * 10 ^ k := by
          rw [← abs_of_pos hgrid, ← abs_mul, abs_of_pos hgrid, sub_mul,
            div_mul_cancel₀ _ hgrid.ne']
      _ ≤ 1 / 2 * 10 ^ k := mul_le_mul_of_nonneg_right hj hgrid.le
      _ ≤ m * 2 ^ e / (2 * 10 ^ 16) := by
          rw [le_div_iff₀ (by positivity)]
          linarith
  refine onGrid?_isSome_of_reads rfl ?_
  have hhalf := abs_sub_div_le_half (Binary64.quotient 10 n d k).1 hpos
  rw [hquotient] at hhalf
  exact hhalf.imp (hreads _) (hreads _)

/-! ## Reading back -/

theorem toRat_trimmed (fuel : ℕ) (decimal : Decimal) :
    (trimmed fuel decimal).toRat = decimal.toRat := by
  fun_induction trimmed fuel decimal with
  | case1 decimal => rfl
  | case2 decimal fuel h ih =>
      rw [ih]
      simp only [Bool.and_eq_true, decide_eq_true_eq] at h
      have hdigits : (decimal.digits : ℚ) = 10 * ((decimal.digits / 10 : ℕ) : ℚ) := by
        exact_mod_cast show decimal.digits = 10 * (decimal.digits / 10) by omega
      unfold toRat
      rw [hdigits, zpow_add_one₀ (by norm_num)]
      ring
  | case3 decimal fuel h => rfl

/-- The shortest decimal of a value is read as the value, with either sign. -/
theorem ofDecimal_shortest {m : ℕ} {e : ℤ} (h : Binary64.Normal m e) (negative : Bool) :
    Binary64.ofDecimal negative (shortest m e).digits (shortest m e).exponent
      = Binary64.signed negative (Binary64.code m e) := by
  obtain ⟨hd, hvalue⟩ := Binary64.fraction_spec m e
  set n := (Binary64.fraction m e).1
  set d := (Binary64.fraction m e).2
  have hm : (0 : ℚ) < m := by exact_mod_cast h.pos
  have hn : 0 < n := by
    rcases Nat.eq_zero_or_pos n with hn | hn
    · have hpos : (0 : ℚ) < m * 2 ^ e := by positivity
      rw [← hvalue, hn] at hpos
      simp at hpos
    · exact hn
  have hx : Binary64.nearest false n d = Binary64.signed false (Binary64.code m e) := by
    refine Binary64.nearest_of_close h hn hd ?_ false
    rw [hvalue, sub_self, abs_zero]
    positivity
  -- the search ends at seventeen digits, if not before
  obtain ⟨found, hfound⟩ : ∃ found, (List.range 17).findSome? (fun i => onGrid?
      (Binary64.nearest false n d) n d (pointPosition n d - ((i + 1 : ℕ) : ℤ))) = some found := by
    rw [← Option.isSome_iff_exists, List.findSome?_isSome_iff]
    refine ⟨16, by decide, ?_⟩
    rw [hx]
    exact onGrid?_isSome h hn hd hvalue
  have hreads : Binary64.ofDecimal false found.digits found.exponent
      = Binary64.signed false (Binary64.code m e) := by
    obtain ⟨i, -, hi⟩ := List.exists_of_findSome?_eq_some hfound
    obtain ⟨hexponent, hread⟩ := onGrid?_spec hi
    rw [hexponent, hread, hx]
  have hshortest : shortest m e = trimmed 20 found := by
    have hunfold : shortest m e = if m = 0 then ⟨0, 0⟩ else
        trimmed 20 (((List.range 17).findSome? (fun i => onGrid? (Binary64.nearest false n d) n d
          (pointPosition n d - ((i + 1 : ℕ) : ℤ)))).getD ⟨n, 0⟩) := rfl
    rw [hunfold, if_neg h.pos.ne', hfound, Option.getD_some]
  refine Binary64.ofDecimal_sign h.code_lt.le ?_ negative
  rw [hshortest, ← hreads]
  exact Binary64.ofDecimal_congr (toRat_trimmed 20 found) false

end Decimal

end MessageKeys
