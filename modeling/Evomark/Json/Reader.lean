import Evomark.Json
import Evomark.Json.Error
/-!
# Reading JSON

`Json.read` reads a text that is one JSON value with white space around it. Arrays and objects
may be nested 127 deep. A key that occurs twice has its last value.

A reader takes the characters left and gives a value with what is left after it, or a `Fault`.
The readers of items and entries are given the reader of one item, so the nesting depth is the
only recursion of `readValue`.
-/

namespace Evomark.Json

/-- A reader: a value and what is left, or a fault. -/
abbrev Reader (α : Type) := List Char → Except Fault (α × List Char)

/-- The white space of JSON. -/
def isSpace (c : Char) : Bool := c == ' ' || c == '\n' || c == '\t' || c == '\r'

/-- What is left after white space. -/
def skipSpace (cs : List Char) : List Char := cs.dropWhile isSpace

/-- A decimal digit. -/
def isDigit (c : Char) : Bool := '0' ≤ c && c ≤ '9'

/-- The value of a decimal digit. -/
def digitValue (c : Char) : Nat := c.toNat - '0'.toNat

/-- The value of a hexadecimal digit. -/
def hexValue? (c : Char) : Option Nat :=
  if isDigit c then some (digitValue c)
  else if 'a' ≤ c && c ≤ 'f' then some (c.toNat - 'a'.toNat + 10)
  else if 'A' ≤ c && c ≤ 'F' then some (c.toNat - 'A'.toNat + 10)
  else none

/-- `value`, once the rest of a word has been read. -/
def readWord {α : Type} (value : α) : List Char → Reader α
  | [], cs => .ok (value, cs)
  | _ :: _, [] => .error (.before .unfinishedValue [])
  | expected :: word, c :: rest =>
    if c = expected then readWord value word rest else .error (.next .expectedWord (c :: rest))

/-! ## Strings -/

/-- The character of a one-letter escape. -/
def shortEscape? (c : Char) : Option Char :=
  match c with
  | '"' => some '"'
  | '\\' => some '\\'
  | '/' => some '/'
  | 'b' => some '\x08'
  | 'f' => some '\x0c'
  | 'n' => some '\n'
  | 'r' => some '\r'
  | 't' => some '\t'
  | _ => none

/-- The number written by four hexadecimal digits. -/
def hexUnit? (a b c d : Char) : Option Nat := do
  let a ← hexValue? a
  let b ← hexValue? b
  let c ← hexValue? c
  let d ← hexValue? d
  return ((a * 16 + b) * 16 + c) * 16 + d

/-- The fault of four places that are not hexadecimal digits. -/
def hexFault (cs : List Char) : Fault :=
  if Text.byteLength cs < 4 then .before .unfinishedString [] else ⟨.invalidEscape, cs, 4⟩

/-- The fault of what stands after a leading surrogate in place of the escape that completes it. -/
def surrogateFault : List Char → Fault
  | [] => .before .unfinishedString []
  | c :: rest =>
    if c != '\\' then ⟨.unfinishedSurrogate, c :: rest, 1⟩
    else match rest with
      | [] => .before .unfinishedString []
      | u :: more =>
        if u != 'u' then ⟨.unfinishedSurrogate, u :: more, 1⟩ else hexFault more

/-- A number that is the first half of a pair of escapes. -/
def isLeading (n : Nat) : Bool := 0xD800 ≤ n && n ≤ 0xDBFF

/-- A number that is the second half of a pair of escapes. -/
def isTrailing (n : Nat) : Bool := 0xDC00 ≤ n && n ≤ 0xDFFF

/-- A result with one more character in front. -/
def prepend (c : Char) (result : Except Fault (List Char × List Char)) :
    Except Fault (List Char × List Char) :=
  match result with
  | .ok (cs, rest) => .ok (c :: cs, rest)
  | .error fault => .error fault

/-- The characters of a string whose opening quote has been read. -/
def readQuoted : Reader (List Char)
  | [] => .error (.before .unfinishedString [])
  | c :: rest =>
    if c = '"' then .ok ([], rest)
    else if c = '\\' then
      match rest with
      | [] => .error (.before .unfinishedString [])
      | e :: more =>
        if e = 'u' then
          match more with
          | h₁ :: h₂ :: h₃ :: h₄ :: after =>
            match hexUnit? h₁ h₂ h₃ h₄ with
            | none => .error (hexFault more)
            | some n =>
              if isTrailing n then .error (.before .loneSurrogate after)
              else if isLeading n then
                match after with
                | '\\' :: 'u' :: g₁ :: g₂ :: g₃ :: g₄ :: last =>
                  match hexUnit? g₁ g₂ g₃ g₄ with
                  | none => .error (surrogateFault after)
                  | some m =>
                    if isTrailing m then
                      prepend (Char.ofNat (0x10000 + (n - 0xD800) * 0x400 + (m - 0xDC00)))
                        (readQuoted last)
                    else .error (.before .loneSurrogate last)
                | _ => .error (surrogateFault after)
              else prepend (Char.ofNat n) (readQuoted after)
          | _ => .error (hexFault more)
        else
          match shortEscape? e with
          | some x => prepend x (readQuoted more)
          | none => .error (.next .invalidEscape (e :: more))
    else if c.toNat < 32 then .error (.next .controlCharacter (c :: rest))
    else prepend c (readQuoted rest)

/-- `readQuoted` as a string. -/
def readString : Reader String := fun cs => do
  let (chars, rest) ← readQuoted cs
  return (String.ofList chars, rest)

/-! ## Numbers -/

/-- The first character is a digit. -/
def startsWithDigit : List Char → Bool
  | c :: _ => isDigit c
  | [] => false

/-- Digits appended to `m` as long as the number stays an unsigned 64-bit integer, and what is
left. -/
def readSignificand (m : Nat) : List Char → Nat × List Char
  | [] => (m, [])
  | c :: rest =>
    if isDigit c && 10 * m + digitValue c < 0x1_0000_0000_0000_0000 then
      readSignificand (10 * m + digitValue c) rest
    else (m, c :: rest)

/-- `m * 10 ^ scale`: the significand is rounded, then scaled by a rounded power of ten, so the
result can be off by one place. Powers below -308 are applied in several steps. -/
def scaleSignificand (x : Binary64) : Nat → Int → Option Binary64
  | 0, _ => some (.zero x.negative)
  | fuel + 1, scale =>
    if scale.natAbs ≤ 308 then
      match Binary64.ofNat false (Nat.pow 10 scale.natAbs) with
      | none => none
      | some power => if 0 ≤ scale then x.mul? power else x.div? power
    else if x.isZero then some x
    else if 0 ≤ scale then none
    else
      match Binary64.ofNat false (Nat.pow 10 308) with
      | none => none
      | some power =>
        match x.div? power with
        | none => none
        | some y => scaleSignificand y fuel (scale + 308)

/-- The number of a significand and a power of ten, read up to `rest`. -/
def finishFloat (negative : Bool) (m : Nat) (scale : Int) (rest : List Char) :
    Except Fault (Number × List Char) :=
  match (Binary64.ofNat negative m).bind fun x => scaleSignificand x 8 scale with
  | some x => .ok (.float x, rest)
  | none => .error (.before .numberOutOfRange rest)

/-- The digits of an exponent after its first, with `exp` read so far. An exponent beyond 32 bits
makes the number zero or too large. -/
def readExponentDigits (negative : Bool) (m : Nat) (scale : Int) (down : Bool) (exp : Nat) :
    List Char → Except Fault (Number × List Char)
  | [] => finishFloat negative m (if down then scale - exp else scale + exp) []
  | c :: rest =>
    if isDigit c then
      let next := 10 * exp + digitValue c
      if next < 0x8000_0000 then readExponentDigits negative m scale down next rest
      else if m != 0 && !down then .error (.before .numberOutOfRange rest)
      else .ok (.float (.zero negative), rest.dropWhile isDigit)
    else finishFloat negative m (if down then scale - exp else scale + exp) (c :: rest)

/-- The exponent after its mark. -/
def readExponent (negative : Bool) (m : Nat) (scale : Int) (cs : List Char) :
    Except Fault (Number × List Char) :=
  let (down, cs) := match cs with
    | '+' :: rest => (false, rest)
    | '-' :: rest => (true, rest)
    | cs => (false, cs)
  match cs with
  | [] => .error (.before .unfinishedValue [])
  | c :: rest =>
    if isDigit c then readExponentDigits negative m scale down (digitValue c) rest
    else .error (.next .invalidNumber (c :: rest))

/-- An exponent if there is one. -/
def readScale (negative : Bool) (m : Nat) (scale : Int) (cs : List Char) :
    Except Fault (Number × List Char) :=
  match cs with
  | [] => finishFloat negative m scale []
  | c :: rest =>
    if c = 'e' || c = 'E' then readExponent negative m scale rest
    else finishFloat negative m scale (c :: rest)

/-- The fraction after the point. Digits that no longer fit the significand are dropped. -/
def readFraction (negative : Bool) (m : Nat) (scale : Int) (cs : List Char) :
    Except Fault (Number × List Char) :=
  let (m', rest) := readSignificand m cs
  let scale' := scale - ((cs.length - rest.length : Nat) : Int)
  if startsWithDigit rest then readScale negative m' scale' (rest.dropWhile isDigit)
  else if rest.length = cs.length then
    .error (.next (if rest.isEmpty then .unfinishedValue else .invalidNumber) rest)
  else readScale negative m' scale' rest

/-- What follows the whole part of a number that is kept exactly. -/
def finishInteger (negative : Bool) (m : Nat) (cs : List Char) :
    Except Fault (Number × List Char) :=
  let plain : Except Fault (Number × List Char) :=
    if negative then
      if m = 0 || m > 0x8000_0000_0000_0000 then finishFloat true m 0 cs
      else .ok (.integer (-(m : Int)), cs)
    else .ok (.integer m, cs)
  match cs with
  | [] => plain
  | c :: rest =>
    if c = '.' then readFraction negative m 0 rest
    else if c = 'e' || c = 'E' then readExponent negative m 0 rest
    else plain

/-- What follows a significand that a further digit of the whole part would overflow. -/
def finishLong (negative : Bool) (m : Nat) (cs : List Char) : Except Fault (Number × List Char) :=
  let rest := cs.dropWhile isDigit
  let scale : Int := ((cs.length - rest.length : Nat) : Int)
  match rest with
  | [] => finishFloat negative m scale []
  | c :: more =>
    if c = '.' then readFraction negative m scale more else readScale negative m scale (c :: more)

/-- A number after its sign. -/
def readNumber (negative : Bool) : Reader Number
  | [] => .error (.before .unfinishedValue [])
  | c :: rest =>
    if c = '0' then
      if startsWithDigit rest then .error (.next .invalidNumber rest)
      else finishInteger negative 0 rest
    else if isDigit c then
      let (m, more) := readSignificand (digitValue c) rest
      if startsWithDigit more then finishLong negative m more else finishInteger negative m more
    else .error (.next .invalidNumber (c :: rest))

/-! ## Values -/

/-- Items up to the closing bracket; `first` before any item has been read. The bound on the
number of items is met by the length of the text. -/
def readItems {α : Type} (item : Reader α) : Nat → Bool → Reader (List α)
  | 0, _, cs => .error (.next .unfinishedArray cs)
  | fuel + 1, first, cs =>
    match skipSpace cs with
    | [] => .error (.next .unfinishedArray [])
    | c :: rest =>
      if c = ']' then .ok ([], rest)
      else if first then do
        let (x, rest) ← item (c :: rest)
        let (xs, rest) ← readItems item fuel false rest
        return (x :: xs, rest)
      else if c = ',' then
        match skipSpace rest with
        | [] => .error (.next .unfinishedValue [])
        | d :: more =>
          if d = ']' then .error (.next .trailingComma (d :: more))
          else do
            let (x, rest) ← item (d :: more)
            let (xs, rest) ← readItems item fuel false rest
            return (x :: xs, rest)
      else .error (.next .expectedCommaOrBracket (c :: rest))

/-- Entries up to the closing brace, which is left. `entry` is given the key and reads on from
behind it. -/
def foldEntries {σ : Type} (entry : σ → String → Reader σ) : Nat → Bool → σ → Reader σ
  | 0, _, _, cs => .error (.next .unfinishedObject cs)
  | fuel + 1, first, state, cs =>
    match skipSpace cs with
    | [] => .error (.next .unfinishedObject [])
    | c :: rest =>
      if c = '\x7d' then .ok (state, c :: rest)
      else if first then
        if c = '"' then do
          let (key, rest) ← readString rest
          let (state, rest) ← entry state key rest
          foldEntries entry fuel false state rest
        else .error (.next .keyNotString (c :: rest))
      else if c = ',' then
        match skipSpace rest with
        | [] => .error (.next .unfinishedValue [])
        | d :: more =>
          if d = '"' then do
            let (key, rest) ← readString more
            let (state, rest) ← entry state key rest
            foldEntries entry fuel false state rest
          else if d = '\x7d' then .error (.next .trailingComma (d :: more))
          else .error (.next .keyNotString (d :: more))
      else .error (.next .expectedCommaOrBrace (c :: rest))

/-- The colon between a key and its value. -/
def readColon (cs : List Char) : Except Fault (List Char) :=
  match skipSpace cs with
  | [] => .error (.next .unfinishedObject [])
  | c :: rest => if c = ':' then .ok rest else .error (.next .expectedColon (c :: rest))

/-- An entry that puts its value into a table. -/
def tableEntry {α : Type} (value : Reader α) (table : Table α) (key : String) : Reader (Table α) :=
  fun cs => do
    let cs ← readColon cs
    let (v, rest) ← value cs
    return (table.insert key v, rest)

/-- A table after its opening brace. -/
def readTable {α : Type} (value : Reader α) : Reader (Table α) := fun cs => do
  let (table, rest) ← foldEntries (tableEntry value) (cs.length + 1) true [] cs
  return (table, rest.drop 1)

/-- A value in which arrays and objects are nested at most `depth` deep. -/
def readValue : Nat → Reader Json
  | depth, cs =>
    match skipSpace cs with
    | [] => .error (.next .unfinishedValue [])
    | c :: rest =>
      if c = 'n' then readWord .null ['u', 'l', 'l'] rest
      else if c = 't' then readWord (.bool true) ['r', 'u', 'e'] rest
      else if c = 'f' then readWord (.bool false) ['a', 'l', 's', 'e'] rest
      else if c = '-' then (readNumber true rest).map fun (n, rest) => (.number n, rest)
      else if isDigit c then (readNumber false (c :: rest)).map fun (n, rest) => (.number n, rest)
      else if c = '"' then (readString rest).map fun (s, rest) => (.string s, rest)
      else if c = '[' then
        match depth with
        | 0 => .error (.next .tooDeep (c :: rest))
        | depth + 1 => do
          let (items, rest) ← readItems (readValue depth) (rest.length + 1) true rest
          return (.array items, rest)
      else if c = '\x7b' then
        match depth with
        | 0 => .error (.next .tooDeep (c :: rest))
        | depth + 1 => do
          let (fields, rest) ← readTable (readValue depth) rest
          return (.object fields, rest)
      else .error (.next .expectedValue (c :: rest))

/-- How deep arrays and objects may be nested. -/
def maxDepth : Nat := 127

/-- A whole text read by `reader`, with nothing but white space after the value. -/
def readAll {α : Type} (reader : Reader α) (source : String) : Except Error α :=
  match reader source.toList with
  | .error fault => .error (.ofFault source fault)
  | .ok (value, rest) =>
    match skipSpace rest with
    | [] => .ok value
    | rest => .error (.ofFault source (.next .trailingCharacters rest))

/-- The value that a text denotes. -/
def read (source : String) : Except Error Json := readAll (readValue maxDepth) source

end Evomark.Json
