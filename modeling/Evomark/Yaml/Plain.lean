import Evomark.Json
import Evomark.Decimal.Notation
import Evomark.Yaml.Error
/-!
# What scalars denote

A plain scalar denotes null, a truth value or a number where its text has that form, and is a
text otherwise (`plainValue`); any other scalar is a text. A tag of the core schema fixes the
type instead (`scalarValue`).
-/

namespace Evomark.Yaml

/-- The spellings of null. -/
def isNull (text : String) : Bool := ["null", "Null", "NULL", "~"].contains text

/-- The truth value of a text. -/
def readBool? (text : String) : Option Bool :=
  if ["true", "True", "TRUE"].contains text then some true
  else if ["false", "False", "FALSE"].contains text then some false
  else none

/-! ## Whole numbers -/

/-- The value of a digit in some base up to sixteen. -/
def digitIn? (base : Nat) (c : Char) : Option Nat :=
  let value :=
    if isDigit c then some (c.toNat - '0'.toNat)
    else if 'a' ≤ c && c ≤ 'f' then some (c.toNat - 'a'.toNat + 10)
    else if 'A' ≤ c && c ≤ 'F' then some (c.toNat - 'A'.toNat + 10)
    else none
  value.filter (· < base)

/-- The number of a text that is one or more digits in a base. -/
def naturalIn? (base : Nat) (cs : List Char) : Option Nat :=
  if cs.isEmpty then none
  else cs.foldlM (fun n c => (digitIn? base c).map (n * base + ·)) 0

/-- Digits that start with a zero, after a sign or none: such a text is no number. -/
def hasLeadingZero (cs : List Char) : Bool :=
  match (match cs with | '-' :: rest => rest | '+' :: rest => rest | cs => cs) with
  | '0' :: d :: rest => (d :: rest).all isDigit
  | _ => false

/-- A number in a base named by a letter, or in decimal. -/
def magnitude? (cs : List Char) : Option Nat :=
  match cs with
  | '0' :: 'x' :: rest => naturalIn? 16 rest
  | '0' :: 'o' :: rest => naturalIn? 8 rest
  | '0' :: 'b' :: rest => naturalIn? 2 rest
  | cs => naturalIn? 10 cs

/-- The whole number of a text. -/
def integer? (cs : List Char) : Option Int :=
  if hasLeadingZero cs then none else Decimal.signed? magnitude? cs

/-- A whole number as a value: beyond 64 bits it is a mismatch, and beyond 128 bits none. -/
def integerValue? (n : Int) : Option (Except Mismatch Json) :=
  if Number.minInteger ≤ n && n ≤ Number.maxInteger then some (.ok (.int n))
  else if -(1 <<< 127 : Nat) ≤ n && n < (1 <<< 128 : Nat) then some (.error .numberOutOfRange)
  else none

/-! ## Other numbers -/

/-- The spellings of infinity and of what is no number, which have no value. -/
def isNotFinite (text : String) : Bool :=
  [".inf", ".Inf", ".INF", "+.inf", "+.Inf", "+.INF", "-.inf", "-.Inf", "-.INF", ".nan", ".NaN",
    ".NAN"].contains text

/-- The value of a number with a fraction or an exponent. -/
def floatValue? (text : String) : Option Json :=
  if isNotFinite text then some .null
  else (Binary64.ofNotation? text.toList).map (.number <| .float ·)

/-! ## Scalars -/

/-- What a plain scalar without a tag denotes. -/
def plainValue (text : String) : Except Mismatch Json :=
  if text = "" || isNull text then .ok .null
  else
    match readBool? text with
    | some b => .ok (.bool b)
    | none =>
      match (integer? text.toList).bind integerValue? with
      | some value => value
      | none =>
        if hasLeadingZero text.toList then .ok (.string text)
        else .ok ((floatValue? text).getD (.string text))

/-- A type that a tag gives to a scalar. -/
def typedValue? (tag text : String) : Option (Except Mismatch Json) :=
  let checked (value : Option (Except Mismatch Json)) (expected : String) :=
    some (value.getD (.error (.wrongType text expected)))
  if tag = "tag:yaml.org,2002:bool" then checked ((readBool? text).map (.ok <| .bool ·)) "a boolean"
  else if tag = "tag:yaml.org,2002:int" then
    checked ((integer? text.toList).bind integerValue?) "an integer"
  else if tag = "tag:yaml.org,2002:float" then checked ((floatValue? text).map .ok) "a float"
  else if tag = "tag:yaml.org,2002:null" then
    checked (if isNull text then some (.ok .null) else none) "null"
  else none

/-- A tag of the application itself, which no value has. -/
def isLocalTag (tag : Option String) : Bool := tag.any (·.toList.head? == some '!')

/-- What a scalar denotes. -/
def scalarValue (tag : Option String) (text : String) (plain : Bool) : Except Mismatch Json :=
  match tag with
  | none => if plain then plainValue text else .ok (.string text)
  | some name =>
    if isLocalTag tag then .error .tagged
    else (typedValue? name text).getD (.ok (.string text))

end Evomark.Yaml
