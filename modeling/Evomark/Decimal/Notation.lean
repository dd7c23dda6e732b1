import Evomark.Decimal.Shortest
/-!
# Written decimals

`Decimal.ofNotation?` reads a number in decimal or scientific notation: digits with at most one
point among, before or after them, and an exponent after the letter `e` in either case.
`Binary64.ofNotation?` rounds it once.
-/

namespace Evomark

namespace Decimal

/-- A decimal digit. -/
def isDigit (c : Char) : Bool := '0' ≤ c && c ≤ '9'

/-- The value of a decimal digit. -/
def digitValue (c : Char) : Nat := c.toNat - '0'.toNat

/-- The number whose decimal digits are `cs`. -/
def ofDigits (cs : List Char) : Nat := cs.foldl (fun n c => n * 10 + digitValue c) 0

/-- A number with a sign in front or none. -/
def signed? (read : List Char → Option Nat) : List Char → Option Int
  | '+' :: rest => (read rest).map (↑·)
  | '-' :: rest => (read rest).map (-↑·)
  | cs => (read cs).map (↑·)

/-- The number of a text that is one or more digits. -/
def natural? (cs : List Char) : Option Nat :=
  if cs.isEmpty || !cs.all isDigit then none else some (ofDigits cs)

/-- The exponent a number ends with; zero where it has none. -/
def exponent? : List Char → Option Int
  | [] => some 0
  | c :: rest => if c == 'e' || c == 'E' then signed? natural? rest else none

/-- The number written without a sign by a text. -/
def ofNotation? (cs : List Char) : Option Decimal :=
  let whole := cs.takeWhile isDigit
  let (fraction, rest) :=
    match cs.dropWhile isDigit with
    | '.' :: rest => (rest.takeWhile isDigit, rest.dropWhile isDigit)
    | rest => ([], rest)
  if whole.isEmpty && fraction.isEmpty then none
  else (exponent? rest).map fun e => ⟨ofDigits (whole ++ fraction), e - fraction.length⟩

end Decimal

/-- The number nearest to the one written by a text, with a sign or none; `none` also beyond the
greatest number. -/
def Binary64.ofNotation? (cs : List Char) : Option Binary64 :=
  let (negative, cs) :=
    match cs with
    | '-' :: rest => (true, rest)
    | '+' :: rest => (false, rest)
    | cs => (false, cs)
  (Decimal.ofNotation? cs).bind fun d => Binary64.ofDecimal negative d.digits d.scale

end Evomark
