import Evomark.Decimal.Binary64
/-!
# TOML values

The values a settings file is made of. Dates and times are kept as their text in standard form.
-/

namespace Evomark

/-- A number that is not kept as an integer. -/
inductive Real
  | finite (value : Binary64)
  | infinite (negative : Bool)
  | undefined
  deriving DecidableEq, Repr, Inhabited

/-- A TOML value. The keys of a table are all different. -/
inductive Toml
  | text (value : String)
  | integer (value : Int)
  | real (value : Real)
  | truth (value : Bool)
  | moment (text : String)
  | array (items : List Toml)
  | table (entries : List (String × Toml))
  deriving Inhabited, Repr

namespace Toml

/-- The least integer. -/
def minInteger : Int := -0x8000_0000_0000_0000

/-- The greatest integer. -/
def maxInteger : Int := 0x7FFF_FFFF_FFFF_FFFF

/-- How many parts a dotted key has at most, and how deep values are nested. -/
def maxDepth : Nat := 79

end Toml

end Evomark
