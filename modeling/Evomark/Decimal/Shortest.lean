import Evomark.Decimal.Binary64
/-!
# Shortest decimals

`Binary64.shortest` gives the fewest decimal digits that still round to a number, and of those
the ones nearest to it. A number owns the reals that round to it: half a unit of the last binary
place to either side, a quarter below a power of two, the ends included when the significand is
even. On the grid of `n` digits only the two neighbours of the number can be nearest, so `n`
grows from one until a neighbour lies in the interval; seventeen digits always suffice.
-/

namespace Evomark

/-- The number `digits * 10 ^ scale`. -/
structure Decimal where
  digits : Nat
  scale : Int
  deriving DecidableEq, Repr

namespace Decimal

/-- How often `n` can be divided by ten, at most `fuel` times, and what is left. -/
def stripZeros : Nat → Nat → Nat × Nat
  | 0, n => (n, 0)
  | fuel + 1, n =>
    if n != 0 && n % 10 == 0 then
      let (m, k) := stripZeros fuel (n / 10)
      (m, k + 1)
    else (n, 0)

/-- The same number without trailing zeros among its digits. -/
def normalize (d : Decimal) : Decimal :=
  let (digits, zeros) := stripZeros 20 d.digits
  ⟨digits, d.scale + zeros⟩

/-- The decimal digits. -/
def text (d : Decimal) : List Char := Nat.toDigits 10 d.digits

/-- The power of ten of the first digit. -/
def leadingPower (d : Decimal) : Int := d.scale + (d.text.length : Int) - 1

end Decimal

namespace Binary64

/-- The power of ten of the first digit of `num / den`, found upwards from `guess`. -/
def leadingPowerFrom (num den : Nat) : Nat → Int → Int
  | 0, guess => guess
  | fuel + 1, guess =>
    let next := guess + 1
    let reached :=
      if next < 0 then den ≤ num * Nat.pow 10 next.natAbs else den * Nat.pow 10 next.toNat ≤ num
    if reached then leadingPowerFrom num den fuel next else guess

/-- The power of ten of the first digit of `num / den`, a positive number of the format. The
search starts from the binary logarithms, at most two below the answer. -/
def leadingPower (num den : Nat) : Int :=
  let bits : Int := (Nat.log2 num : Int) - (Nat.log2 den : Int)
  leadingPowerFrom num den 4 ((bits - 1) * 30103 / 100000 - 1)

/-- `num / den` in units of `10 ^ scale`, as a numerator and a denominator. -/
def inUnits (num den : Nat) (scale : Int) : Nat × Nat :=
  if scale < 0 then (num * Nat.pow 10 scale.natAbs, den) else (num, den * Nat.pow 10 scale.toNat)

/-- `k` quarters of `2 ^ e`, as a numerator and a denominator; the denominator is the same for
every `k`. -/
def quarters (e : Int) (k : Nat) : Nat × Nat :=
  if e < 0 then (k, 4 <<< e.natAbs) else (k <<< e.toNat, 4)

/-- The decimal nearest to `m * 2 ^ e` among the multiples of `10 ^ scale` that round to it, if
there is one. The interval reaches two quarters of `2 ^ e` up and `below` quarters down. -/
def onGrid (m : Nat) (e : Int) (below : Nat) (scale : Int) : Option Decimal :=
  let scaled (k : Nat) := inUnits (quarters e k).1 (quarters e k).2 scale
  let (n, d) := scaled (4 * m)
  let q := n / d
  let r := n % d
  let fits (distance bound : Nat) := distance < bound || (distance == bound && m % 2 == 0)
  let lower := q != 0 && fits r (scaled below).1
  let upper := fits (d - r) (scaled 2).1
  if lower && upper then
    if 2 * r < d || (2 * r == d && q % 2 == 0) then some ⟨q, scale⟩ else some ⟨q + 1, scale⟩
  else if lower then some ⟨q, scale⟩
  else if upper then some ⟨q + 1, scale⟩
  else none

/-- The first grid with a decimal in the interval, from `digits` digits on. -/
def shortestFrom (m : Nat) (e : Int) (below : Nat) (power : Int) : Nat → Nat → Decimal
  | 0, digits => ⟨m, power - digits⟩
  | fuel + 1, digits =>
    match onGrid m e below (power - digits + 1) with
    | some d => d
    | none => shortestFrom m e below power fuel (digits + 1)

/-- The fewest digits that round to the absolute value of `x`, and of those the nearest. -/
def shortest (x : Binary64) : Decimal :=
  if x.significand = 0 then ⟨0, 0⟩
  else
    let (num, den) := x.toRatio
    let below := if x.significand = 1 <<< 52 ∧ x.exponent ≠ minExponent then 1 else 2
    (shortestFrom x.significand x.exponent below (leadingPower num den) 17 1).normalize

end Binary64

end Evomark
