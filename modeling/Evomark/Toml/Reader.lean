import Evomark.Toml.Draft
import Evomark.Toml.Scalar
/-!
# Reading TOML

`Toml.read?` gives the table that a text of settings denotes, or `none`. A text is a list of
`Statement`s, one for each line that is not empty: the header of a table, the header of the next
table of an array, or a key with its value. They are read first and then carried out in order on a
`Draft`.

A reader takes the characters left and gives a value with what is left after it. Readers of
items are given the reader of one item, so the nesting depth is the only recursion of `readValue`.
-/

namespace Evomark.Toml

/-- A reader: a value and what is left. -/
abbrev Reader (α : Type) := List Char → Option (α × List Char)

/-! ## Blanks and lines -/

/-- A space or a tab. -/
def isBlank (c : Char) : Bool := c == ' ' || c == '\t'

/-- A character that may stand in texts and comments, besides line breaks. -/
def isPrintable (c : Char) : Bool := c == '\t' || (0x20 ≤ c.toNat && c.toNat != 0x7F)

/-- What is left after blanks. -/
def skipBlanks (cs : List Char) : List Char := cs.dropWhile isBlank

/-- What is left after a line break, if one is next. -/
def lineBreak? : List Char → Option (List Char)
  | '\n' :: rest => some rest
  | '\r' :: '\n' :: rest => some rest
  | _ => none

/-- What is left after a comment, if one is next. -/
def skipComment : List Char → List Char
  | '#' :: rest => rest.dropWhile isPrintable
  | cs => cs

/-- The start of the next line, after blanks and a comment. -/
def endLine? (cs : List Char) : Option (List Char) :=
  let rest := skipComment (skipBlanks cs)
  if rest.isEmpty then some [] else lineBreak? rest

/-- What is left after blanks and line breaks. -/
def skipSpace : List Char → List Char
  | '\r' :: '\n' :: rest => skipSpace rest
  | c :: rest => if isBlank c || c == '\n' then skipSpace rest else c :: rest
  | [] => []

/-- What is left after blanks, line breaks and comments. -/
def skipFiller : (fuel : Nat) → List Char → List Char
  | 0, cs => cs
  | fuel + 1, cs =>
    match skipBlanks cs with
    | '#' :: rest =>
      match lineBreak? (rest.dropWhile isPrintable) with
      | some more => skipFiller fuel more
      | none => '#' :: rest
    | cs =>
      match lineBreak? cs with
      | some more => skipFiller fuel more
      | none => cs

/-! ## Texts -/

/-- A form of quoted text. -/
structure TextForm where
  quote : Char
  /-- Backslashes escape. -/
  escapes : Bool
  /-- Three quotes stand on each side, and lines may end inside. -/
  multiline : Bool

/-- The character of a one-letter escape. -/
def shortEscape? (c : Char) : Option Char :=
  match c with
  | 'b' => some '\x08'
  | 't' => some '\t'
  | 'n' => some '\n'
  | 'f' => some '\x0c'
  | 'r' => some '\r'
  | '"' => some '"'
  | '\\' => some '\\'
  | _ => none

/-- The character whose code point is written by hexadecimal digits. -/
def codePoint? (digits : List Char) : Option Char :=
  match digits.mapM (digitIn? 16) with
  | none => none
  | some values =>
    let n := values.foldl (fun n d => n * 16 + d) 0
    if n < 0xD800 || (0xE000 ≤ n && n ≤ 0x10FFFF) then some (Char.ofNat n) else none

/-- The text of an escape after its backslash. In a text of several lines a line that ends with a
backslash continues at the next word. -/
def readEscape (multiline : Bool) : Reader (List Char)
  | [] => none
  | c :: rest =>
    match shortEscape? c with
    | some x => some ([x], rest)
    | none =>
      if c = 'u' || c = 'U' then
        let count := if c = 'u' then 4 else 8
        if rest.length < count then none
        else (codePoint? (rest.take count)).map fun x => ([x], rest.drop count)
      else if multiline && (lineBreak? (skipBlanks (c :: rest))).isSome then
        some ([], skipSpace (c :: rest))
      else none

/-- A text after its opening quotes, up to and with the closing ones. Up to two quotes may stand
right before three closing ones. -/
def readText (form : TextForm) (cs : List Char) : Option (List Char × List Char) :=
  let further (part after : List Char) : Option (List Char × List Char) :=
    if _h : after.length < cs.length then
      (readText form after).map fun (more, last) => (part ++ more, last)
    else none
  match cs with
  | [] => none
  | c :: rest =>
    if c = form.quote then
      let quotes := (rest.takeWhile (· == form.quote)).length
      if !form.multiline then some ([], rest)
      else if 2 ≤ quotes then
        some (List.replicate (min (quotes - 2) 2) form.quote, rest.drop (min quotes 4))
      else further [c] rest
    else if c = '\\' && form.escapes then
      (readEscape form.multiline rest).bind fun (part, after) => further part after
    else if isPrintable c then further [c] rest
    else if form.multiline then (lineBreak? (c :: rest)).bind fun after => further ['\n'] after
    else none
termination_by cs.length

/-- A text of several lines, without a line break right after the opening quotes. -/
def readLines (quote : Char) (cs : List Char) : Option (String × List Char) :=
  (readText ⟨quote, quote == '"', true⟩ ((lineBreak? cs).getD cs)).map fun (chars, rest) =>
    (String.ofList chars, rest)

/-- A text on one line. -/
def readLine (quote : Char) (cs : List Char) : Option (String × List Char) :=
  (readText ⟨quote, quote == '"', false⟩ cs).map fun (chars, rest) => (String.ofList chars, rest)

/-! ## Keys -/

/-- A character of keys without quotes. -/
def isKeyChar (c : Char) : Bool :=
  Decimal.isDigit c || ('a' ≤ c && c ≤ 'z') || ('A' ≤ c && c ≤ 'Z') || c == '_' || c == '-'

/-- One part of a key. -/
def readKeyPart : Reader String
  | '"' :: rest => readLine '"' rest
  | '\'' :: rest => readLine '\'' rest
  | cs =>
    let part := cs.takeWhile isKeyChar
    if part.isEmpty then none else some (String.ofList part, cs.dropWhile isKeyChar)

/-- The parts of a key, and blanks around each. `fuel` is the greatest number of parts. -/
def readKeyParts : (fuel : Nat) → Reader (List String)
  | 0, _ => none
  | fuel + 1, cs => do
    let (part, rest) ← readKeyPart (skipBlanks cs)
    match skipBlanks rest with
    | '.' :: more =>
      let (parts, rest) ← readKeyParts fuel more
      return (part :: parts, rest)
    | rest => return ([part], rest)

/-- A key: the parts before the last, and the last. -/
structure Key where
  path : List String
  name : String

/-- A key. -/
def readKey : Reader Key := fun cs => do
  let (parts, rest) ← readKeyParts maxDepth cs
  return (⟨parts.dropLast, parts.getLast?.getD ""⟩, rest)

/-! ## Values -/

/-- Items up to the closing bracket, with a comma after each but perhaps the last. The bound on
the number of items is met by the length of the text. -/
def readItems (item : Reader Toml) : (bound : Nat) → Reader (List Toml)
  | 0, _ => none
  | bound + 1, cs =>
    match skipFiller cs.length cs with
    | ']' :: rest => some ([], rest)
    | cs => do
      let (value, rest) ← item cs
      match skipFiller rest.length rest with
      | ',' :: rest =>
        let (values, rest) ← readItems item bound rest
        return (value :: values, rest)
      | ']' :: rest => return ([value], rest)
      | _ => none

/-- A key, its value, and the mark between them. -/
def readPair (item : Reader Toml) : Reader (Key × Toml) := fun cs => do
  let (key, rest) ← readKey cs
  match rest with
  | '=' :: rest =>
    let (value, rest) ← item (skipBlanks rest)
    return ((key, value), rest)
  | _ => none

/-- Entries up to the closing brace, with a comma between them, added to a table. -/
def readEntries (item : Reader Toml) : (bound : Nat) → Draft → Reader Draft
  | 0, _, _ => none
  | bound + 1, draft, cs => do
    let ((key, value), rest) ← readPair item cs
    let draft ← draft.assign? key.path key.name value
    match skipBlanks rest with
    | ',' :: rest => readEntries item bound draft rest
    | '}' :: rest => return (draft, rest)
    | _ => none

/-- A word, or a date and a time with a space between them. -/
def readWord : Reader Toml := fun cs =>
  let word := cs.takeWhile isWordChar
  match cs.dropWhile isWordChar with
  | ' ' :: d :: rest =>
    if (splitDate? word).any (·.2.isEmpty) && Decimal.isDigit d then
      let time := (d :: rest).takeWhile isWordChar
      (ofWord? (word ++ ' ' :: time)).map (·, (d :: rest).dropWhile isWordChar)
    else (ofWord? word).map (·, ' ' :: d :: rest)
  | rest => (ofWord? word).map (·, rest)

/-- A value nested at most `depth` deep. -/
def readValue : (depth : Nat) → Reader Toml
  | depth, cs =>
    match cs with
    | '"' :: '"' :: '"' :: rest => (readLines '"' rest).map fun (s, rest) => (.text s, rest)
    | '\'' :: '\'' :: '\'' :: rest => (readLines '\'' rest).map fun (s, rest) => (.text s, rest)
    | '"' :: rest => (readLine '"' rest).map fun (s, rest) => (.text s, rest)
    | '\'' :: rest => (readLine '\'' rest).map fun (s, rest) => (.text s, rest)
    | '[' :: rest =>
      match depth with
      | 0 => none
      | depth + 1 =>
        (readItems (readValue depth) (rest.length + 1) rest).map fun (items, rest) =>
          (.array items, rest)
    | '{' :: rest =>
      match depth with
      | 0 => none
      | depth + 1 =>
        match skipBlanks rest with
        | '}' :: rest => some (.table [], rest)
        | rest =>
          (readEntries (readValue depth) (rest.length + 1) (.empty .header) rest).map
            fun (draft, rest) => (draft.toToml, rest)
    | cs => readWord cs

/-! ## Statements -/

/-- A line of a text. -/
inductive Statement
  | table (key : Key)
  | next (key : Key)
  | assign (key : Key) (value : Toml)

/-- A statement. -/
def readStatement : Reader Statement
  | '[' :: '[' :: rest =>
    match readKey rest with
    | some (key, ']' :: ']' :: rest) => some (.next key, rest)
    | _ => none
  | '[' :: rest =>
    match readKey rest with
    | some (key, ']' :: rest) => some (.table key, rest)
    | _ => none
  | cs => (readPair (readValue maxDepth) cs).map fun ((key, value), rest) => (.assign key value, rest)

/-- The statements of a text. Every line has a character or more, so `fuel` is the number of
characters. -/
def readStatements : (fuel : Nat) → List Char → Option (List Statement)
  | 0, _ => none
  | fuel + 1, cs =>
    if cs.isEmpty then some []
    else
      match endLine? cs with
      | some rest => readStatements fuel rest
      | none => do
        let (statement, rest) ← readStatement (skipBlanks cs)
        let statements ← readStatements fuel (← endLine? rest)
        return statement :: statements

/-- Carries out statements, the last header being the table at `header`. -/
def carryOut : List Statement → (header : List String) → Draft → Option Draft
  | [], _, draft => some draft
  | .table key :: statements, _, draft =>
    (draft.openTable? key.path key.name).bind (carryOut statements (key.path ++ [key.name]))
  | .next key :: statements, _, draft =>
    (draft.openNext? key.path key.name).bind (carryOut statements (key.path ++ [key.name]))
  | .assign key value :: statements, header, draft =>
    (draft.modify? .implied (·.assign? key.path key.name value) header).bind
      (carryOut statements header)

/-- What is left after a byte order mark. -/
def skipByteOrderMark : List Char → List Char
  | '\uFEFF' :: rest => rest
  | cs => cs

/-- The table that a text denotes. -/
def read? (source : String) : Option Toml := do
  let cs := skipByteOrderMark source.toList
  let statements ← readStatements (cs.length + 1) cs
  let draft ← carryOut statements [] (.empty .header)
  return draft.toToml

end Evomark.Toml
