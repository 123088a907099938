/-!
# Double-precision numbers

A number with a fraction or an exponent in a document is kept as the IEEE 754 binary64
value nearest to it, a tie going to the value with an even last bit.  All arithmetic is
exact on natural numbers: a positive rational is rounded once, and a finite value decodes
to an integer times a power of two.
-/

namespace MessageKeys

/-- A binary64 value, as its bit pattern. -/
structure Binary64 where
  bits : UInt64
  deriving DecidableEq, Repr

namespace Binary64

/-- What a bit pattern stands for. -/
inductive Shape where
  | finite (negative : Bool) (mantissa : Nat) (exponent : Int)
  | infinite (negative : Bool)
  | notANumber
  deriving DecidableEq, Repr

/-- Quotient of natural numbers, rounded to the nearest integer and from a tie to the even
one. -/
def divideToEven (numerator denominator : Nat) : Nat :=
  let quotient := numerator / denominator
  let twice := 2 * (numerator % denominator)
  if twice < denominator then quotient
  else if denominator < twice then quotient + 1
  else if quotient % 2 = 0 then quotient
  else quotient + 1

/-- The numerator and denominator of `numerator / denominator / 2 ^ exponent`. -/
def scaled (numerator denominator : Nat) (exponent : Int) : Nat × Nat :=
  if 0 ≤ exponent then (numerator, denominator * Nat.pow 2 exponent.toNat)
  else (numerator * Nat.pow 2 (-exponent).toNat, denominator)

/-- The exponent at which a positive rational has a mantissa of 53 bits, or the least
exponent there is. -/
def fittingExponent (numerator denominator : Nat) : Int :=
  let guess : Int := (numerator.log2 : Int) - (denominator.log2 : Int) - 52
  let (n, d) := scaled numerator denominator guess
  let exponent := if n / d < Nat.pow 2 52 then guess - 1 else guess
  max exponent (-1074)

/-- Set the sign of a magnitude. -/
def signed (negative : Bool) (magnitude : Nat) : Binary64 :=
  ⟨UInt64.ofNat (if negative then magnitude + Nat.pow 2 63 else magnitude)⟩

/-- The magnitude of infinity, just above every finite magnitude. -/
def infinityBits : Nat :=
  0x7ff * Nat.pow 2 52

/-- An infinite value. -/
def infinity (negative : Bool) : Binary64 :=
  signed negative infinityBits

/-- The value that is not a number. -/
def nan : Binary64 :=
  ⟨0x7ff8000000000000⟩

/-- Zero with a sign. -/
def zero (negative : Bool) : Binary64 :=
  signed negative 0

/-- The value nearest to a rational.  Magnitudes of neighbouring values differ by one, so
a mantissa that rounds up to 54 bits carries into the exponent. -/
def nearest (negative : Bool) (numerator denominator : Nat) : Binary64 :=
  if numerator = 0 then zero negative
  else
    let exponent := fittingExponent numerator denominator
    let (n, d) := scaled numerator denominator exponent
    let magnitude := (exponent + 1074).toNat * Nat.pow 2 52 + divideToEven n d
    if infinityBits ≤ magnitude then infinity negative else signed negative magnitude

/-- The value nearest to `digits * 10 ^ exponent`.  Exponents far outside the range of
finite values give zero or infinity without computing the power. -/
def ofDecimal (negative : Bool) (digits : Nat) (exponent : Int) : Binary64 :=
  if digits = 0 then zero negative
  else if 400 < exponent then infinity negative
  else if exponent + ((digits.log2 / 3 + 1 : Nat) : Int) < -400 then zero negative
  else if 0 ≤ exponent then nearest negative (digits * Nat.pow 10 exponent.toNat) 1
  else nearest negative digits (Nat.pow 10 (-exponent).toNat)

/-- Decode a bit pattern. -/
def shape (x : Binary64) : Shape :=
  let all := x.bits.toNat
  let negative := Nat.pow 2 63 ≤ all
  let magnitude := all % Nat.pow 2 63
  let field : Nat := magnitude / Nat.pow 2 52
  let fraction := magnitude % Nat.pow 2 52
  if field = 0x7ff then
    if fraction = 0 then .infinite negative else .notANumber
  else if field = 0 then .finite negative fraction (-1074)
  else .finite negative (fraction + Nat.pow 2 52) ((field : Int) - 1075)

/-- The numerator and denominator of a finite magnitude. -/
def fraction (mantissa : Nat) (exponent : Int) : Nat × Nat :=
  if 0 ≤ exponent then (mantissa * Nat.pow 2 exponent.toNat, 1)
  else (mantissa, Nat.pow 2 (-exponent).toNat)

/-- A finite magnitude rounded to `places` decimal places, in units of the last place.  A
tie of the exact value goes to the even unit. -/
def roundedUnits (x : Binary64) (places : Nat) : Nat :=
  match x.shape with
  | .finite _ mantissa exponent =>
      let (n, d) := fraction mantissa exponent
      divideToEven (n * Nat.pow 10 places) d
  | _ => 0

end Binary64

end MessageKeys
