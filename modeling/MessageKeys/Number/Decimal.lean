import MessageKeys.Text.Basic

/-!
# Numerals

Whole numbers are written in decimal without leading zeros and read back digit by digit;
escapes use hexadecimal of a fixed width.  `value_decimal` says that reading undoes
writing.
-/

namespace MessageKeys.Numeral

/-- The digit for a number below ten, as a code point. -/
def digit (d : Nat) : CodePoint :=
  CodePoint.ofNat (0x30 + d)

/-- The decimal numeral of a natural number. -/
def decimal (n : Nat) : Text :=
  if n < 10 then [digit n] else decimal (n / 10) ++ [digit (n % 10)]

/-- The decimal numeral of an integer. -/
def signed : Int → Text
  | .ofNat n => decimal n
  | .negSucc n => CodePoint.ofChar '-' :: decimal (n + 1)

/-- The number that a run of decimal digits stands for. -/
def value (digits : Text) : Nat :=
  digits.foldl (fun total c => 10 * total + (c.val - 0x30)) 0

/-- The lower-case hexadecimal digit for a number below sixteen. -/
def hexDigit (d : Nat) : CodePoint :=
  CodePoint.ofNat (if d < 10 then 0x30 + d else 0x61 + (d - 10))

/-- The last `width` hexadecimal digits of a number. -/
def hex : (width : Nat) → (n : Nat) → Text
  | 0, _ => []
  | width + 1, n => hex width (n / 16) ++ [hexDigit (n % 16)]

theorem digit_val {d : Nat} (h : d < 10) : (digit d).val = 0x30 + d := by
  simp only [digit, CodePoint.ofNat]
  omega

theorem isDigit_digit {d : Nat} (h : d < 10) : (digit d).isDigit = true := by
  simp only [CodePoint.isDigit, digit_val h, Bool.and_eq_true, decide_eq_true_eq]
  omega

theorem all_isDigit_decimal (n : Nat) : ∀ c ∈ decimal n, c.isDigit = true := by
  fun_induction decimal n with
  | case1 n h =>
      intro c hc
      rw [List.mem_singleton.mp hc]
      exact isDigit_digit h
  | case2 n h ih =>
      intro c hc
      rcases List.mem_append.mp hc with hc | hc
      · exact ih c hc
      · rw [List.mem_singleton.mp hc]
        exact isDigit_digit (Nat.mod_lt _ (by omega))

theorem value_decimal (n : Nat) : value (decimal n) = n := by
  fun_induction decimal n with
  | case1 n h => simp [value, digit_val h]
  | case2 n h ih =>
      have hlast : (digit (n % 10)).val - 0x30 = n % 10 := by
        rw [digit_val (Nat.mod_lt _ (by omega))]
        omega
      simp only [value] at ih ⊢
      rw [List.foldl_append, ih, List.foldl_cons, List.foldl_nil, hlast]
      omega

theorem decimal_ne_nil (n : Nat) : decimal n ≠ [] := by
  fun_induction decimal n with
  | case1 n h => simp
  | case2 n h ih => simp

end MessageKeys.Numeral
