import Evomark.Json
import Evomark.Text.Blank
import Evomark.Decimal.Style
/-!
# Writing JSON

`Json.compact` writes a value without any white space, `Json.pretty` over several lines with two
spaces a level. In strings a quote, a backslash and the characters below U+0020 are escaped and
nothing else. A number that is not kept as an integer is written with the fewest digits that read
back, positional for leading powers of ten from -5 to 15, always with a fraction.
-/

namespace Evomark

namespace Number

/-- The decimal text of a whole number. -/
def integerText (n : Int) : List Char :=
  FloatStyle.sign (decide (n < 0)) ++ Nat.toDigits 10 n.natAbs

/-- The text of a number. -/
def write : Number → List Char
  | integer n => integerText n
  | float x => FloatStyle.json.write x

end Number

namespace Json

/-- The two lower-case hexadecimal digits of a number below 256. -/
def hexByte (n : Nat) : List Char := [Nat.digitChar (n / 16), Nat.digitChar (n % 16)]

/-- A character of a string as it is written. -/
def escape (c : Char) : List Char :=
  if c = '"' then ['\\', '"']
  else if c = '\\' then ['\\', '\\']
  else if c.toNat = 8 then ['\\', 'b']
  else if c.toNat = 9 then ['\\', 't']
  else if c.toNat = 10 then ['\\', 'n']
  else if c.toNat = 12 then ['\\', 'f']
  else if c.toNat = 13 then ['\\', 'r']
  else if c.toNat < 32 then ['\\', 'u', '0', '0'] ++ hexByte c.toNat
  else [c]

/-- The quoted form of a text. -/
def quote (s : String) : List Char := '"' :: s.toList.flatMap escape ++ ['"']

/-- The text of a truth value. -/
def boolText : Bool → List Char
  | true => ['t', 'r', 'u', 'e']
  | false => ['f', 'a', 'l', 's', 'e']

mutual

/-- A value without white space. -/
def write : Json → List Char
  | null => ['n', 'u', 'l', 'l']
  | bool b => boolText b
  | number n => n.write
  | string s => quote s
  | array items => '[' :: writeItems items ++ [']']
  | object fields => '\x7b' :: writeFields fields ++ ['\x7d']

/-- Values with commas between them. -/
def writeItems : List Json → List Char
  | [] => []
  | [item] => write item
  | item :: items => write item ++ ',' :: writeItems items

/-- Keys and values with commas between them. -/
def writeFields : List (String × Json) → List Char
  | [] => []
  | [(key, value)] => quote key ++ ':' :: write value
  | (key, value) :: fields => quote key ++ ':' :: write value ++ ',' :: writeFields fields

end

/-- The compact text of a value. -/
def compact (value : Json) : String := String.ofList (write value)

/-- A line feed and two spaces for each level. -/
def newLine (level : Nat) : List Char := '\n' :: List.replicate (2 * level) ' '

mutual

/-- A value over several lines, the first of them at `level`. Empty arrays and objects stay on one
line. -/
def writePretty (level : Nat) : Json → List Char
  | null => ['n', 'u', 'l', 'l']
  | bool b => boolText b
  | number n => n.write
  | string s => quote s
  | array [] => ['[', ']']
  | array (item :: items) =>
    '[' :: newLine (level + 1) ++ writePretty (level + 1) item
      ++ prettyItems (level + 1) items ++ newLine level ++ [']']
  | object [] => ['\x7b', '\x7d']
  | object ((key, value) :: fields) =>
    '\x7b' :: newLine (level + 1) ++ quote key ++ ':' :: ' ' :: writePretty (level + 1) value
      ++ prettyFields (level + 1) fields ++ newLine level ++ ['\x7d']

/-- The values after the first, each on a line of its own. -/
def prettyItems (level : Nat) : List Json → List Char
  | [] => []
  | item :: items => ',' :: newLine level ++ writePretty level item ++ prettyItems level items

/-- The fields after the first, each on a line of its own. -/
def prettyFields (level : Nat) : List (String × Json) → List Char
  | [] => []
  | (key, value) :: fields =>
    ',' :: newLine level ++ quote key ++ ':' :: ' ' :: writePretty level value
      ++ prettyFields level fields

end

/-- The text of a value over several lines. -/
def pretty (value : Json) : String := String.ofList (writePretty 0 value)

end Json

end Evomark
