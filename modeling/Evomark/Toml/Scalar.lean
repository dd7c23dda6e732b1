import Evomark.Toml
import Evomark.Decimal.Notation
/-!
# Numbers, truth values, dates and times

What a word of a TOML text denotes. `Toml.ofWord?` reads the whole word or nothing.
-/

namespace Evomark.Toml

open Decimal (isDigit ofDigits)

/-- A character of the words that are values. -/
def isWordChar (c : Char) : Bool :=
  isDigit c || ('a' ≤ c && c ≤ 'z') || ('A' ≤ c && c ≤ 'Z')
    || c == '+' || c == '-' || c == '_' || c == '.' || c == ':'

/-! ## Numbers -/

/-- Digits with single lines between some of them, without the lines. -/
def grouped? (digit : Char → Bool) : List Char → Option (List Char)
  | [] => none
  | [c] => if digit c then some [c] else none
  | c :: d :: rest =>
    if !digit c then none
    else if d == '_' then (grouped? digit rest).map (c :: ·)
    else (grouped? digit (d :: rest)).map (c :: ·)

/-- A sign, if there is one, and what follows it. -/
def splitSign : List Char → Bool × List Char
  | '-' :: rest => (true, rest)
  | '+' :: rest => (false, rest)
  | cs => (false, cs)

/-- The digits of a number in decimal, which start with a zero only if that is all. -/
def wholeDigits? (cs : List Char) : Option (List Char) :=
  (grouped? isDigit cs).filter fun digits => digits.length = 1 || digits.head? != some '0'

/-- The value of a digit in a base up to sixteen. -/
def digitIn? (base : Nat) (c : Char) : Option Nat :=
  let value :=
    if isDigit c then some (Decimal.digitValue c)
    else if 'a' ≤ c && c ≤ 'f' then some (c.toNat - 'a'.toNat + 10)
    else if 'A' ≤ c && c ≤ 'F' then some (c.toNat - 'A'.toNat + 10)
    else none
  value.filter (· < base)

/-- The number of a text of grouped digits in a base. -/
def naturalIn? (base : Nat) (cs : List Char) : Option Nat :=
  (grouped? (fun c => (digitIn? base c).isSome) cs).map fun digits =>
    digits.foldl (fun n c => n * base + (digitIn? base c).getD 0) 0

/-- The integer of a word. -/
def integer? (cs : List Char) : Option Int :=
  let value : Option Int :=
    match cs with
    | '0' :: 'x' :: rest => (naturalIn? 16 rest).map (↑·)
    | '0' :: 'o' :: rest => (naturalIn? 8 rest).map (↑·)
    | '0' :: 'b' :: rest => (naturalIn? 2 rest).map (↑·)
    | cs =>
      let (negative, rest) := splitSign cs
      (wholeDigits? rest).map fun digits =>
        if negative then -(ofDigits digits : Int) else ofDigits digits
  value.filter fun n => minInteger ≤ n && n ≤ maxInteger

/-- The words for values that are not finite. -/
def notFinite? (negative : Bool) (cs : List Char) : Option Real :=
  if cs = ['i', 'n', 'f'] then some (.infinite negative)
  else if cs = ['n', 'a', 'n'] then some .undefined
  else none

/-- The digits and the scale of a number with a fraction, an exponent or both. -/
def decimal? (cs : List Char) : Option Decimal := do
  let isMantissa := fun c => c != 'e' && c != 'E'
  let mantissa := cs.takeWhile isMantissa
  let power ←
    match cs.dropWhile isMantissa with
    | [] => some none
    | _ :: rest =>
      let (negative, rest) := splitSign rest
      (grouped? isDigit rest).map fun digits =>
        some (if negative then -(ofDigits digits : Int) else ofDigits digits)
  let whole ← wholeDigits? (mantissa.takeWhile (· != '.'))
  match mantissa.dropWhile (· != '.'), power with
  | [], none => none
  | [], some e => some ⟨ofDigits whole, e⟩
  | _ :: rest, power =>
    (grouped? isDigit rest).map fun fraction =>
      ⟨ofDigits (whole ++ fraction), power.getD 0 - fraction.length⟩

/-- The number of a word that is no integer. One that is too small is infinite, and one that is too
large is none. -/
def real? (cs : List Char) : Option Real :=
  let (negative, rest) := splitSign cs
  match notFinite? negative rest with
  | some value => some value
  | none =>
    (decimal? rest).bind fun d =>
      match Binary64.ofDecimal negative d.digits d.scale with
      | some x => some (.finite x)
      | none => if negative then some (.infinite true) else none

/-! ## Dates and times -/

/-- The number of two digits, within bounds. -/
def twoDigits? (least greatest : Nat) (a b : Char) : Option Nat :=
  if isDigit a && isDigit b then
    some (ofDigits [a, b]) |>.filter fun n => least ≤ n && n ≤ greatest
  else none

/-- How many days a month has. -/
def daysIn (year month : Nat) : Nat :=
  if month = 2 then
    if year % 4 = 0 && (year % 100 != 0 || year % 400 = 0) then 29 else 28
  else if month = 4 || month = 6 || month = 9 || month = 11 then 30
  else 31

/-- A date at the start of a text, and what is left. -/
def splitDate? : List Char → Option (List Char × List Char)
  | y₁ :: y₂ :: y₃ :: y₄ :: '-' :: m₁ :: m₂ :: '-' :: d₁ :: d₂ :: rest => do
    let year := [y₁, y₂, y₃, y₄]
    if !year.all isDigit then none
    let month ← twoDigits? 1 12 m₁ m₂
    let _ ← twoDigits? 1 (daysIn (ofDigits year) month) d₁ d₂
    return (year ++ ['-', m₁, m₂, '-', d₁, d₂], rest)
  | _ => none

/-- The fraction of a second in standard form: nine places at most, and no zeros at the end. -/
def fractionText (digits : List Char) : List Char :=
  match ((digits.take 9).reverse.dropWhile (· == '0')).reverse with
  | [] => []
  | digits => '.' :: digits

/-- A time at the start of a text, and what is left. -/
def splitTime? : List Char → Option (List Char × List Char)
  | h₁ :: h₂ :: ':' :: m₁ :: m₂ :: ':' :: s₁ :: s₂ :: rest => do
    let _ ← twoDigits? 0 23 h₁ h₂
    let _ ← twoDigits? 0 59 m₁ m₂
    let _ ← twoDigits? 0 60 s₁ s₂
    let time := [h₁, h₂, ':', m₁, m₂, ':', s₁, s₂]
    match rest with
    | '.' :: d :: more =>
      if isDigit d then
        return (time ++ fractionText ((d :: more).takeWhile isDigit), (d :: more).dropWhile isDigit)
      else none
    | rest => return (time, rest)
  | _ => none

/-- A distance from universal time, in standard form. -/
def offset? : List Char → Option (List Char)
  | [z] => if z == 'Z' || z == 'z' then some ['Z'] else none
  | [sign, h₁, h₂, ':', m₁, m₂] => do
    if sign != '+' && sign != '-' then none
    let hours ← twoDigits? 0 23 h₁ h₂
    let minutes ← twoDigits? 0 59 m₁ m₂
    let sign := if hours = 0 && minutes = 0 then '+' else sign
    return [sign, h₁, h₂, ':', m₁, m₂]
  | _ => none

/-- A time with or without a distance from universal time, as a whole text. -/
def timeOfDay? (cs : List Char) : Option (List Char) := do
  let (time, rest) ← splitTime? cs
  if rest.isEmpty then return time else return time ++ (← offset? rest)

/-- A date, a time, or both, as a whole text. -/
def moment? (cs : List Char) : Option (List Char) :=
  match splitDate? cs with
  | some (date, []) => some date
  | some (date, t :: rest) =>
    if t == 'T' || t == 't' || t == ' ' then (timeOfDay? rest).map (date ++ 'T' :: ·) else none
  | none =>
    match splitTime? cs with
    | some (time, []) => some time
    | _ => none

/-! ## Words -/

/-- The value of a word. -/
def ofWord? (cs : List Char) : Option Toml :=
  if cs = ['t', 'r', 'u', 'e'] then some (.truth true)
  else if cs = ['f', 'a', 'l', 's', 'e'] then some (.truth false)
  else
    match moment? cs with
    | some chars => some (.moment (String.ofList chars))
    | none =>
      match integer? cs with
      | some n => some (.integer n)
      | none => (real? cs).map .real

end Evomark.Toml
