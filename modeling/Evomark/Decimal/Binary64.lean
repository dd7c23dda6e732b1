/-!
# Binary numbers of 64 bits

The finite numbers of the format binary64, as a sign, a significand below 2^53 and a power of
two. `ofRatio` rounds a quotient of natural numbers to the nearest of them, a half to the even
significand. All arithmetic is on `Nat` and `Int`, so results are exact up to that rounding.
-/

namespace Evomark

/-- The number `significand * 2 ^ exponent` with a sign. Zero keeps its sign. -/
structure Binary64 where
  negative : Bool
  significand : Nat
  exponent : Int
  deriving DecidableEq, Repr, Inhabited

namespace Binary64

/-- The least exponent of the format. -/
def minExponent : Int := -1074

/-- The greatest exponent of the format. -/
def maxExponent : Int := 971

/-- Zero, with a sign. -/
def zero (negative : Bool) : Binary64 := ⟨negative, 0, minExponent⟩

/-- The same number with the sign `negative`. -/
def withSign (negative : Bool) (x : Binary64) : Binary64 := { x with negative }

/-- A number that is zero, of either sign. -/
def isZero (x : Binary64) : Bool := x.significand == 0

/-- The quotient and remainder of `num / den` by `2 ^ e`, with the divisor of the remainder. -/
def scaledQuotient (num den : Nat) (e : Int) : Nat × Nat × Nat :=
  let (n, d) := if e < 0 then (num <<< e.natAbs, den) else (num, den <<< e.toNat)
  (n / d, n % d, d)

/-- The exponent at which the quotient `num / den` has 53 binary digits, or the least one. -/
def quotientExponent (num den : Nat) : Int :=
  let guess : Int := (Nat.log2 num : Int) - (Nat.log2 den : Int) - 52
  let e := if (scaledQuotient num den guess).1 < 1 <<< 52 then guess - 1 else guess
  max e minExponent

/-- The number nearest to `num / den`, a half going to the even significand; `none` beyond the
greatest number. -/
def ofRatio (negative : Bool) (num den : Nat) : Option Binary64 :=
  if num = 0 then some (zero negative)
  else
    let e := quotientExponent num den
    let (q, r, d) := scaledQuotient num den e
    let m := if 2 * r > d || (2 * r == d && q % 2 == 1) then q + 1 else q
    let (m, e) := if m = 1 <<< 53 then (1 <<< 52, e + 1) else (m, e)
    if e > maxExponent then none else some ⟨negative, m, e⟩

/-- The absolute value as a numerator and a denominator. -/
def toRatio (x : Binary64) : Nat × Nat :=
  if x.exponent < 0 then (x.significand, 1 <<< x.exponent.natAbs)
  else (x.significand <<< x.exponent.toNat, 1)

/-- The number nearest to a natural number. -/
def ofNat (negative : Bool) (n : Nat) : Option Binary64 := ofRatio negative n 1

/-- The number nearest to `digits * 10 ^ scale`, rounded once. Scales far beyond the format are
cut off before a power of ten is formed. -/
def ofDecimal (negative : Bool) (digits : Nat) (scale : Int) : Option Binary64 :=
  if digits = 0 then some (zero negative)
  else
    let size : Int := ((Nat.log2 digits : Nat) : Int) / 3 + 1
    if scale > 400 then none
    else if scale + size < -400 then some (zero negative)
    else if scale < 0 then ofRatio negative digits (Nat.pow 10 scale.natAbs)
    else ofRatio negative (digits * Nat.pow 10 scale.toNat) 1

/-- The rounded product. -/
def mul? (x y : Binary64) : Option Binary64 :=
  let (a, b) := x.toRatio
  let (c, d) := y.toRatio
  ofRatio (x.negative != y.negative) (a * c) (b * d)

/-- The rounded quotient; `y` is not zero. -/
def div? (x y : Binary64) : Option Binary64 :=
  let (a, b) := x.toRatio
  let (c, d) := y.toRatio
  ofRatio (x.negative != y.negative) (a * d) (b * c)

/-- The two numbers are equal as numbers: zeros of both signs are. -/
def sameNumber (x y : Binary64) : Bool := (x.isZero && y.isZero) || x == y

end Binary64

end Evomark
