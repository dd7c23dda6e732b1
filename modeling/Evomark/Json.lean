import Evomark.Table
import Evomark.Decimal.Binary64
/-!
# JSON values

The values a document carries as data: parameters, configuration, contents of variables. The
fields of an object are a `Table`, so they are ordered by key and no key occurs twice in a value
that was read. Whole numbers in the range of 64-bit integers are kept as such; any other number
is a `Binary64`.
-/

namespace Evomark

/-- A JSON number. -/
inductive Number
  /-- A whole number. -/
  | integer (value : Int)
  /-- A number with a fraction, an exponent, or beyond the integers. -/
  | float (value : Binary64)
  deriving DecidableEq, Repr, Inhabited

/-- A JSON value. -/
inductive Json
  | null
  | bool (value : Bool)
  | number (value : Number)
  | string (value : String)
  | array (items : List Json)
  | object (fields : List (String × Json))
  deriving Inhabited, Repr

namespace Number

/-- The least 64-bit integer. -/
def minInteger : Int := -0x8000_0000_0000_0000

/-- The greatest unsigned 64-bit integer. -/
def maxInteger : Int := 0xFFFF_FFFF_FFFF_FFFF

/-- The numbers are of the same form and equal. -/
def same : Number → Number → Bool
  | integer a, integer b => a == b
  | float x, float y => x.sameNumber y
  | _, _ => false

end Number

namespace Json

/-- The whole number `n`. -/
def int (n : Int) : Json := number (.integer n)

/-- The text of a string value. -/
def string? : Json → Option String
  | string s => some s
  | _ => none

/-- The value of a whole number that is not negative. -/
def natural? : Json → Option Nat
  | number (.integer n) => if 0 ≤ n then some n.toNat else none
  | _ => none

/-- The value under `key` in an object. -/
def field? (key : String) : Json → Option Json
  | object fields => Table.get? key fields
  | _ => none

mutual

/-- The values are equal; a whole number is not equal to one with a fraction. -/
def same : Json → Json → Bool
  | null, null => true
  | bool a, bool b => a == b
  | number a, number b => a.same b
  | string a, string b => a == b
  | array xs, array ys => sameItems xs ys
  | object xs, object ys => sameFields xs ys
  | _, _ => false

/-- The lists have equal values at equal places. -/
def sameItems : List Json → List Json → Bool
  | [], [] => true
  | x :: xs, y :: ys => same x y && sameItems xs ys
  | _, _ => false

/-- The lists have equal keys and values at equal places. -/
def sameFields : List (String × Json) → List (String × Json) → Bool
  | [], [] => true
  | (k, x) :: xs, (l, y) :: ys => k == l && same x y && sameFields xs ys
  | _, _ => false

end

end Json

end Evomark
