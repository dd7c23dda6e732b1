import Evomark.Yaml.Token
import Evomark.Yaml.Token.Scalar
/-!
# Properties and directives

What stands before a value: its anchor and its tag, and the directives before a document. A tag
is a handle and a suffix; `readTagUri` reads the suffix, in which percent signs escape the octets
of a character.
-/

namespace Evomark.Yaml.Property

open Scalar (fault hexValue? isCodePoint)

/-! ## Anchors -/

/-- A character that may follow the name of an anchor. -/
def endsAnchor (c : Char) : Bool :=
  isGap c || ['?', ':', ',', ']', '}', '%', '@', '\x60'].contains c

/-- The name of an anchor or an alias whose mark is next. -/
def readAnchor (activity : Activity) (c : Cursor) : Except SyntaxError (String × Cursor) :=
  let name := c.next.run isWordChar
  let after := c.next.skipWhile isWordChar
  if name.isEmpty || !after.head?.all endsAnchor then
    .error (fault activity c.mark .expectedName after)
  else .ok (String.ofList name, after)

/-! ## Tags -/

/-- A character of a tag; flow marks may stand in a whole address only. -/
def isUriChar (whole : Bool) (c : Char) : Bool :=
  isWordChar c
    || [';', '/', '?', ':', '@', '&', '=', '+', '$', '.', '%', '!', '~', '*', '\'', '(', ')'].contains c
    || (whole && (c == ',' || c == '[' || c == ']'))

/-- The octet of the escape that is next. -/
def readOctet? (c : Cursor) : Option Nat :=
  match c.rest with
  | '%' :: a :: b :: _ => do return (← hexValue? a) * 16 + (← hexValue? b)
  | _ => none

/-- How many octets follow the first octet of a character. -/
def trailingOctets? (octet : Nat) : Option Nat :=
  if octet < 0x80 then some 0
  else if octet < 0xC0 then none
  else if octet < 0xE0 then some 1
  else if octet < 0xF0 then some 2
  else if octet < 0xF8 then some 3
  else none

/-- The bits a leading octet gives to a character with so many more octets. -/
def leadingBits (more octet : Nat) : Nat := if more = 0 then octet else octet % (1 <<< (6 - more))

/-- The number of a character, from `value` and the escapes of `count` further octets. -/
def readTrailing (activity : Activity) (start : Mark) :
    (count value : Nat) → Cursor → Except SyntaxError (Nat × Cursor)
  | 0, value, c => .ok (value, c)
  | count + 1, value, c =>
    match readOctet? c with
    | none => .error (fault activity start .expectedOctet c)
    | some octet =>
      if octet / 64 = 2 then readTrailing activity start count (value * 64 + octet % 64) (c.skip 3)
      else .error (fault activity start .wrongTrailingOctet c)

/-- The character written by the escapes from the cursor on. -/
def readEscapedChar (activity : Activity) (start : Mark) (c : Cursor) :
    Except SyntaxError (Char × Cursor) :=
  match readOctet? c with
  | none => .error (fault activity start .expectedOctet c)
  | some octet =>
    match trailingOctets? octet with
    | none => .error (fault activity start .wrongLeadingOctet c)
    | some more =>
      match readTrailing activity start more (leadingBits more octet) (c.skip 3) with
      | .error e => .error e
      | .ok (n, after) => .ok (if isCodePoint n then Char.ofNat n else '\uFFFD', after)

/-- The characters of a tag from the cursor on. -/
def readUriChars (whole : Bool) (activity : Activity) (start : Mark) (c : Cursor) :
    Except SyntaxError (List Char × Cursor) :=
  match _h : c.rest with
  | [] => .ok ([], c)
  | x :: _ =>
    if x = '%' then
      match readEscapedChar activity start c with
      | .error e => .error e
      | .ok (y, after) =>
        if _hy : after.rest.length < c.rest.length then
          (readUriChars whole activity start after).map fun (ys, last) => (y :: ys, last)
        else .ok ([y], after)
    else if isUriChar whole x then
      (readUriChars whole activity start c.next).map fun (ys, last) => (x :: ys, last)
    else .ok ([], c)
termination_by c.rest.length
decreasing_by
  · exact _hy
  · exact Cursor.length_next_lt _h

/-- A tag's address. It is empty only if something of the tag has been read before. -/
def readTagUri (whole begun : Bool) (activity : Activity) (start : Mark) (c : Cursor) :
    Except SyntaxError (String × Cursor) :=
  match readUriChars whole activity start c with
  | .error e => .error e
  | .ok (chars, after) =>
    if chars.isEmpty && !begun then .error (fault activity start .expectedUri after)
    else .ok (String.ofList chars, after)

/-- The name of a handle after its first mark: the word and, if there is one, the mark after it. -/
def readHandle (c : Cursor) : List Char × Bool × Cursor :=
  let word := c.next.run isWordChar
  let after := c.next.skipWhile isWordChar
  if after.startsWith '!' then (word, true, after.next) else (word, false, after)

/-- The tag whose mark is next: a whole address, a handle with a suffix, or a local name. The
mark alone has no handle. -/
def readTagParts (c : Cursor) : Except SyntaxError (String × String × Cursor) :=
  if c.next.startsWith '<' then
    match readTagUri true false .tagUri c.mark (c.skip 2) with
    | .error e => .error e
    | .ok (suffix, after) =>
      if after.startsWith '>' then .ok ("", suffix, after.next)
      else .error (fault .tag c.mark .expectedTagEnd after)
  else
    let (word, closed, after) := readHandle c
    if closed then
      match readTagUri false false .tagUri c.mark after with
      | .error e => .error e
      | .ok (suffix, last) => .ok ("!" ++ String.ofList word ++ "!", suffix, last)
    else
      match readTagUri false true .tagUri c.mark after with
      | .error e => .error e
      | .ok (more, last) =>
        let suffix := String.ofList word ++ more
        if suffix = "" then .ok ("", "!", last) else .ok ("!", suffix, last)

/-- The tag whose mark is next, which ends with its word, or with a comma in a flow collection. -/
def readTag (inFlow : Bool) (c : Cursor) : Except SyntaxError (Lexeme × Cursor) :=
  match readTagParts c with
  | .error e => .error e
  | .ok (handle, suffix, after) =>
    if after.atWordEnd || (inFlow && after.startsWith ',') then .ok (.tag handle suffix, after)
    else .error (fault .tag c.mark .expectedSpaceOrBreak after)

/-! ## Directives -/

/-- A number of up to nine digits. -/
def readVersionNumber (start : Mark) (c : Cursor) : Except SyntaxError (Nat × Cursor) :=
  let digits := c.run isDigit
  if digits.length > 9 then .error (fault .versionDirective start .longVersion (c.skip 9))
  else if digits.isEmpty then .error (fault .versionDirective start .expectedVersion c)
  else
    .ok (digits.foldl (fun n d => n * 10 + (d.toNat - '0'.toNat)) 0, c.skipWhile isDigit)

/-- The version after the name of its directive. -/
def readVersion (start : Mark) (c : Cursor) : Except SyntaxError (Lexeme × Cursor) := do
  let (major, c) ← readVersionNumber start c.skipBlanks
  if c.startsWith '.' then
    let (minor, c) ← readVersionNumber start c.next
    return (.version major minor, c)
  else throw (fault .versionDirective start .expectedVersionPoint c)

/-- The shorthand after the name of its directive. -/
def readShorthand (start : Mark) (c : Cursor) : Except SyntaxError (Lexeme × Cursor) := do
  let c := c.skipBlanks
  if !c.startsWith '!' then throw (fault .tagDirectiveHandle start .expectedHandle c)
  let (word, closed, c) := readHandle c
  if !closed && !word.isEmpty then throw (fault .tagDirectiveName start .expectedHandle c)
  if !c.startsWithAny isBlank then throw (fault .tagDirective start .expectedSpace c)
  let (uri, c) ← readTagUri true false .tagDirectiveUri start c.skipBlanks
  if !c.atWordEnd then throw (fault .tagDirective start .expectedSpaceOrBreak c)
  return (.tagShorthand ("!" ++ String.ofList word ++ if closed then "!" else "") uri, c)

/-- The directive whose mark is next, with the rest of its line. -/
def readDirective (c : Cursor) : Except SyntaxError (Lexeme × Cursor) := do
  let start := c.mark
  let name := String.ofList (c.next.run isWordChar)
  let c := c.next.skipWhile isWordChar
  if name = "" then throw (fault .directive start .expectedDirectiveName c)
  if !c.atWordEnd then throw (fault .directive start .unexpectedInDirectiveName c)
  let (lexeme, c) ←
    if name = "YAML" then readVersion start c
    else if name = "TAG" then readShorthand start c
    else throw (fault .directive start .unknownDirective c)
  let c := c.skipBlanks.skipComment
  if c.atLineEnd then return (lexeme, c.skipBreak)
  else throw (fault .directive start .expectedLineEnd c)

end Evomark.Yaml.Property
