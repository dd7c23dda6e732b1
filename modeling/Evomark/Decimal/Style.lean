import Evomark.Decimal.Shortest
/-!
# Ways to write a number

A number is written with the fewest digits that read back. A `FloatStyle` says for which sizes it
is written out and for which with a power of ten, and whether a whole number has a fraction.
-/

namespace Evomark

/-- How numbers are written that are not kept as integers. -/
structure FloatStyle where
  /-- The least power of ten of a first digit written without an exponent. -/
  leastPositional : Int
  /-- The greatest power of ten of a first digit written without an exponent. -/
  greatestPositional : Int
  /-- A whole number that is written out ends in a point and a zero. -/
  showsFraction : Bool

namespace FloatStyle

/-- The style of JSON texts. -/
def json : FloatStyle := ⟨-5, 15, true⟩

/-- The style of numbers in running text: always written out, with a fraction only if there is
one. -/
def text : FloatStyle := ⟨-400, 400, false⟩

/-- A sign is written for negative numbers only. -/
def sign (negative : Bool) : List Char := if negative then ['-'] else []

/-- The digits with a point, and zeros where a place between them and the point is empty. -/
def positional (style : FloatStyle) (digits : List Char) (scale : Int) : List Char :=
  let n : Int := digits.length
  if 0 ≤ scale then
    digits ++ List.replicate scale.toNat '0' ++ if style.showsFraction then ['.', '0'] else []
  else if -scale < n then
    let whole := (n + scale).toNat
    digits.take whole ++ '.' :: digits.drop whole
  else '0' :: '.' :: List.replicate (-scale - n).toNat '0' ++ digits

/-- One digit before the point, and the power of ten after a mark with its sign. -/
def scientific (digits : List Char) (power : Int) : List Char :=
  let mantissa := match digits with
    | first :: second :: more => first :: '.' :: second :: more
    | digits => digits
  mantissa ++ 'e' :: (if power < 0 then '-' else '+') :: Nat.toDigits 10 power.natAbs

/-- The text of `x`. -/
def write (style : FloatStyle) (x : Binary64) : List Char :=
  let d := x.shortest
  let power := d.leadingPower
  sign x.negative ++
    if style.leastPositional ≤ power ∧ power ≤ style.greatestPositional then
      style.positional d.text d.scale
    else scientific d.text power

end FloatStyle

end Evomark
