import Evomark.Yaml.Token.Property
/-!
# From text to tokens

A `Lexer` reads one token after the other. That something is a key shows only at the colon after
it, so wherever a key may start a `Candidate` is kept; when its colon comes, the key's token and
that of its block are put in before it. A token that a candidate may still precede cannot be had
yet (`Lexer.settled`): an error met meanwhile comes before it. `Feed.ofSource` is the result.
-/

namespace Evomark.Yaml

/-- A place where a key may have started: before token number `token`. A key is required where a
line of a block of keys starts. -/
structure Candidate where
  required : Bool
  token : Nat
  mark : Mark
  deriving DecidableEq, Repr

/-- A key takes at most this many characters. -/
def Candidate.maxLength : Nat := 1024

/-- The key can no longer end at `mark`: it is to be on one line, and short. -/
def Candidate.isStale (mark : Mark) (k : Candidate) : Bool :=
  k.mark.line < mark.line || k.mark.column + maxLength < mark.column

/-- The error that a required key does not come. -/
def Candidate.missing (mark : Mark) (k : Candidate) : SyntaxError :=
  ⟨.missingColon, mark, some (.simpleKey, k.mark)⟩

/-- A text being split into tokens. -/
structure Lexer where
  cursor : Cursor
  /-- The columns of the blocks that are open, innermost first. -/
  indents : List Nat
  /-- The candidate of the innermost flow collection, or of the block outside of all. -/
  candidate : Option Candidate
  /-- The candidates around the flow collections that are open, innermost first. -/
  outer : List (Option Candidate)
  keyAllowed : Bool
  /-- The tokens so far, latest first, and their number. -/
  recent : List Token
  count : Nat
  deriving Repr

namespace Lexer

/-- The lexer at the start of a text. -/
def start (cursor : Cursor) : Lexer := ⟨cursor, [], none, [], true, [], 0⟩

/-- Inside a flow collection. -/
def inFlow (l : Lexer) : Bool := !l.outer.isEmpty

/-- The place of the next character. -/
def mark (l : Lexer) : Mark := l.cursor.mark

/-- The least column inside the innermost block. -/
def margin (l : Lexer) : Nat :=
  match l.indents with
  | [] => 0
  | column :: _ => column + 1

/-- How many tokens can be had: those that no candidate may still precede. -/
def settled (l : Lexer) : Nat :=
  ((l.candidate :: l.outer).filterMap (·.map (·.token))).foldl min l.count

/-- One more token. -/
def push (lexeme : Lexeme) (mark : Mark) (l : Lexer) : Lexer :=
  { l with recent := ⟨lexeme, mark⟩ :: l.recent, count := l.count + 1 }

/-- One more token, put in before token number `number`. -/
def insertAt (number : Nat) (lexeme : Lexeme) (mark : Mark) (l : Lexer) : Lexer :=
  let later := l.count - number
  { l with
    recent := l.recent.take later ++ ⟨lexeme, mark⟩ :: l.recent.drop later
    count := l.count + 1 }

/-- One more token of `n` characters. -/
def take (n : Nat) (lexeme : Lexeme) (l : Lexer) : Lexer :=
  { l.push lexeme l.mark with cursor := l.cursor.skip n }

/-! ## Blocks -/

/-- A block that starts in `column` with the token `lexeme`, unless one of at least that depth is
open or a flow collection is. -/
def openBlock (number : Nat) (lexeme : Lexeme) (mark : Mark) (l : Lexer) : Lexer :=
  if l.inFlow || mark.column < l.margin then l
  else { l.insertAt number lexeme mark with indents := mark.column :: l.indents }

/-- `closeBlocks`, for the blocks still to be looked at. -/
def closeBlocksOf (column : Nat) : List Nat → Lexer → Lexer
  | [], l => { l with indents := [] }
  | indent :: more, l =>
    if column ≤ indent then closeBlocksOf column more (l.push .blockEnd l.mark)
    else { l with indents := indent :: more }

/-- Leaves the blocks in `column` and deeper ones, unless a flow collection is open. -/
def closeBlocks (column : Nat) (l : Lexer) : Lexer :=
  if l.inFlow then l else closeBlocksOf column l.indents l

/-! ## Candidates -/

/-- Forgets the candidate, which must not be required. -/
def dropCandidate (l : Lexer) : Except SyntaxError Lexer :=
  match l.candidate with
  | some k => if k.required then .error (k.missing l.mark) else .ok { l with candidate := none }
  | none => .ok l

/-- A key may start here. -/
def noteCandidate (l : Lexer) : Except SyntaxError Lexer :=
  if l.keyAllowed then do
    let required := !l.inFlow && l.indents.head? == some l.mark.column
    let l ← l.dropCandidate
    return { l with candidate := some ⟨required, l.count, l.mark⟩ }
  else return l

/-- Forgets the candidates that can no longer be keys, none of which may be required. -/
def dropStale (l : Lexer) : Except SyntaxError Lexer :=
  let fresh : Option Candidate → Option Candidate := fun k => k.filter (!·.isStale l.mark)
  match (l.candidate :: l.outer).reverse.findSome? (·.filter fun k => k.required && k.isStale l.mark) with
  | some k => .error (k.missing l.mark)
  | none => .ok { l with candidate := fresh l.candidate, outer := l.outer.map fresh }

/-! ## Single tokens -/

/-- Passes blanks, comments, line breaks, and byte order marks at the start of lines. After a line
break outside flow collections a key may start, and where one may, tabs are not passed. -/
def skipToWord (inFlow keyAllowed : Bool) (c : Cursor) : Bool × Cursor :=
  let isPassed (x : Char) : Bool := x == ' ' || ((inFlow || !keyAllowed) && x == '\t')
  let c' := (c.skipByteOrderMark.skipWhile isPassed).skipComment
  if c'.startsWithAny isBreak then
    if _h : c'.next.rest.length < c.rest.length then
      skipToWord inFlow (keyAllowed || !inFlow) c'.next
    else (keyAllowed, c')
  else (keyAllowed, c')
termination_by c.rest.length

/-- The lexer at the next word, in the block where that word stands. -/
def advance (l : Lexer) : Except SyntaxError Lexer := do
  let (keyAllowed, cursor) := skipToWord l.inFlow l.keyAllowed l.cursor
  let l ← { l with keyAllowed, cursor }.dropStale
  return if l.inFlow then l else closeBlocksOf (l.mark.column + 1) l.indents l

/-- The end of the text, which counts as the start of a line. -/
def finish (l : Lexer) : Except SyntaxError Lexer := do
  let mark : Mark := if l.mark.column = 0 then l.mark else ⟨l.mark.line + 1, 0⟩
  let l := { l with cursor := { l.cursor with mark } }
  (l.closeBlocks 0).dropCandidate

/-- A word read by `read`, at which a key may start. -/
def takeWord (read : Cursor → Except SyntaxError (Lexeme × Cursor)) (l : Lexer) :
    Except SyntaxError Lexer := do
  let l ← l.noteCandidate
  let (lexeme, cursor) ← read l.cursor
  return { l.push lexeme l.mark with cursor, keyAllowed := false }

/-- A word that leaves all blocks. -/
def takeAtMargin (read : Cursor → Except SyntaxError (Lexeme × Cursor)) (l : Lexer) :
    Except SyntaxError Lexer := do
  let l ← (l.closeBlocks 0).dropCandidate
  let (lexeme, cursor) ← read l.cursor
  return { l.push lexeme l.mark with cursor, keyAllowed := false }

/-- The start of a flow collection. -/
def openFlow (lexeme : Lexeme) (l : Lexer) : Except SyntaxError Lexer := do
  let l ← l.noteCandidate
  return { l.take 1 lexeme with
    candidate := none, outer := l.candidate :: l.outer, keyAllowed := true }

/-- The end of a flow collection. -/
def closeFlow (lexeme : Lexeme) (l : Lexer) : Except SyntaxError Lexer := do
  let l ← l.dropCandidate
  let l := { l.take 1 lexeme with keyAllowed := false }
  return match l.outer with
    | [] => l
    | candidate :: outer => { l with candidate, outer }

/-- The comma between values of a flow collection. -/
def takeComma (l : Lexer) : Except SyntaxError Lexer := do
  return { (← l.dropCandidate).take 1 .comma with keyAllowed := true }

/-- The mark of an item of a block. -/
def takeItem (l : Lexer) : Except SyntaxError Lexer := do
  if !l.inFlow && !l.keyAllowed then throw ⟨.itemNotAllowed, l.mark, none⟩
  let l ← (l.openBlock l.count .blockSequence l.mark).dropCandidate
  return { l.take 1 .item with keyAllowed := true }

/-- The mark of a key of any form. -/
def takeKey (l : Lexer) : Except SyntaxError Lexer := do
  if !l.inFlow && !l.keyAllowed then throw ⟨.keyNotAllowed, l.mark, none⟩
  let l ← (l.openBlock l.count .blockMapping l.mark).dropCandidate
  return { l.take 1 .key with keyAllowed := !l.inFlow }

/-- The mark of a value. It makes a candidate a key. -/
def takeValue (l : Lexer) : Except SyntaxError Lexer := do
  match l.candidate with
  | some k =>
    let l := (l.insertAt k.token .key k.mark).openBlock k.token .blockMapping k.mark
    return { l.take 1 .value with candidate := none, keyAllowed := false }
  | none =>
    if !l.inFlow && !l.keyAllowed then throw ⟨.valueNotAllowed, l.mark, none⟩
    let l := l.openBlock l.count .blockMapping l.mark
    return { l.take 1 .value with keyAllowed := !l.inFlow }

/-- A block scalar. -/
def takeBlockScalar (folded : Bool) (l : Lexer) : Except SyntaxError Lexer := do
  let l ← l.dropCandidate
  let (text, cursor) ← Scalar.readBlock folded l.margin l.mark l.cursor.next
  return { l.push (.scalar (String.ofList text) false) l.mark with cursor, keyAllowed := true }

/-- A quoted scalar. -/
def takeQuoted (single : Bool) (l : Lexer) : Except SyntaxError Lexer :=
  l.takeWord fun c =>
    (Scalar.readQuoted single c.mark c.next).map fun (text, after) =>
      (.scalar (String.ofList text) false, after)

/-- A plain scalar. If it is followed by a line break a key may start after it. -/
def takePlain (l : Lexer) : Except SyntaxError Lexer := do
  let l ← l.noteCandidate
  let plain ← Scalar.readPlain ⟨l.inFlow, l.margin⟩ l.mark l.cursor
  return { l.push (.scalar (String.ofList plain.text) true) l.mark with
    cursor := plain.after, keyAllowed := plain.newLine }

/-- A character with a meaning of its own at the start of a word. -/
def isIndicator (c : Char) : Bool :=
  ['-', '?', ':', ',', '[', ']', '{', '}', '#', '&', '*', '!', '|', '>', '\'', '"', '%', '@',
    '\x60'].contains c

/-- A plain scalar may start here with the character `x`. -/
def startsPlain (x : Char) (l : Lexer) : Bool :=
  !(isGap x || isIndicator x)
    || (x == '-' && !l.cursor.next.startsWithAny isBlank)
    || (!l.inFlow && (x == '?' || x == ':') && !l.cursor.atLastOfWord)

/-- The tokens of the word that starts with the character `x`. -/
def takeToken (x : Char) (l : Lexer) : Except SyntaxError Lexer :=
  let c := l.cursor
  let isMark := l.inFlow || c.atLastOfWord
  if x = '%' && c.mark.column = 0 then l.takeAtMargin Property.readDirective
  else if c.atRule '-' then l.takeAtMargin fun c => .ok (.documentStart, c.skip 3)
  else if c.atRule '.' then l.takeAtMargin fun c => .ok (.documentEnd, c.skip 3)
  else if x = '[' then l.openFlow .flowSequence
  else if x = '{' then l.openFlow .flowMapping
  else if x = ']' then l.closeFlow .flowSequenceEnd
  else if x = '}' then l.closeFlow .flowMappingEnd
  else if x = ',' then l.takeComma
  else if x = '-' && c.atLastOfWord then l.takeItem
  else if x = '?' && isMark then l.takeKey
  else if x = ':' && isMark then l.takeValue
  else if x = '*' then l.takeWord fun c =>
    (Property.readAnchor .aliasName c).map fun (name, after) => (.aliasTo name, after)
  else if x = '&' then l.takeWord fun c =>
    (Property.readAnchor .anchorName c).map fun (name, after) => (.anchor name, after)
  else if x = '!' then l.takeWord (Property.readTag l.inFlow)
  else if x = '|' && !l.inFlow then l.takeBlockScalar false
  else if x = '>' && !l.inFlow then l.takeBlockScalar true
  else if x = '\'' then l.takeQuoted true
  else if x = '"' then l.takeQuoted false
  else if l.startsPlain x then l.takePlain
  else .error ⟨.unstartable, l.mark, some (.nextToken, l.mark)⟩

/-- One step: the tokens of the next word, or of the end of the text, which is told apart. -/
def step (l : Lexer) : Except SyntaxError (Lexer × Bool) := do
  let l ← l.advance
  match l.cursor.rest with
  | [] => return (← (← l.finish).dropStale, true)
  | x :: _ => return (← (← l.takeToken x).dropStale, false)

/-- All tokens. Every step but the last reads a character, so `fuel` is the number of characters
left. -/
def feed : (fuel : Nat) → Lexer → Feed
  | 0, l => ⟨l.recent.reverse, .ok l.mark⟩
  | fuel + 1, l =>
    match l.step with
    | .error e => ⟨l.recent.reverse.take l.settled, .error e⟩
    | .ok (l, true) => ⟨l.recent.reverse, .ok l.mark⟩
    | .ok (l, false) => feed fuel l

end Lexer

/-- The tokens of a text. -/
def Feed.ofSource (chars : List Char) : Feed :=
  (Lexer.start (Cursor.ofSource chars)).feed (chars.length + 1)

end Evomark.Yaml
