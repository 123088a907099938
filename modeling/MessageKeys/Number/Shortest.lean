import MessageKeys.Number.Binary64
import MessageKeys.Number.Decimal

/-!
# Shortest decimals

The decimal written for a binary64 value has the fewest digits that still read back as
that value; of several such decimals it is the nearest, and of two equally near the one
with an even last digit.
-/

namespace MessageKeys

/-- A decimal `digits * 10 ^ exponent`. -/
structure Decimal where
  digits : Nat
  exponent : Int
  deriving DecidableEq, Repr

namespace Decimal

/-- The number of decimal places before the point of a positive rational: the least `p`
with `numerator / denominator < 10 ^ p`. -/
def pointPosition (numerator denominator : Nat) : Int :=
  let guess : Int :=
    ((Numeral.decimal numerator).length : Int) - ((Numeral.decimal denominator).length : Int)
  let reached :=
    if 0 ≤ guess then decide (denominator * Nat.pow 10 guess.toNat ≤ numerator)
    else decide (denominator ≤ numerator * Nat.pow 10 (-guess).toNat)
  if reached then guess + 1 else guess

/-- The multiple of `10 ^ exponent` nearest to a positive rational among its two
neighbours, of those that read back as `x`. -/
def onGrid? (x : Binary64) (numerator denominator : Nat) (exponent : Int) : Option Decimal :=
  let (n, d) :=
    if 0 ≤ exponent then (numerator, denominator * Nat.pow 10 exponent.toNat)
    else (numerator * Nat.pow 10 (-exponent).toNat, denominator)
  let below := n / d
  let above := below + 1
  let twice := 2 * (n % d)
  let readsBack (digits : Nat) : Bool := Binary64.ofDecimal false digits exponent == x
  if readsBack below && readsBack above then
    if twice < d || (twice == d && below % 2 == 0) then some ⟨below, exponent⟩
    else some ⟨above, exponent⟩
  else if readsBack below then some ⟨below, exponent⟩
  else if readsBack above then some ⟨above, exponent⟩
  else none

/-- Drop trailing zeros of the digits. -/
def trimmed (fuel : Nat) (decimal : Decimal) : Decimal :=
  match fuel with
  | 0 => decimal
  | fuel + 1 =>
      if decimal.digits % 10 = 0 && decimal.digits ≠ 0 then
        trimmed fuel ⟨decimal.digits / 10, decimal.exponent + 1⟩
      else decimal

/-- The shortest decimal of a finite magnitude.  Seventeen digits always suffice. -/
def shortest (mantissa : Nat) (exponent : Int) : Decimal :=
  if mantissa = 0 then ⟨0, 0⟩
  else
    let (n, d) := Binary64.fraction mantissa exponent
    let x := Binary64.nearest false n d
    let point := pointPosition n d
    let found := (List.range 17).findSome? fun i => onGrid? x n d (point - ((i + 1 : Nat) : Int))
    trimmed 20 (found.getD ⟨n, 0⟩)

end Decimal

end MessageKeys
