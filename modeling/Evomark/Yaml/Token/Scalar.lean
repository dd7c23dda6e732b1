import Evomark.Yaml.Error
/-!
# Scalars

The three ways to write a text: plain, between quotes, and as a block of lines. A gap inside a
plain or quoted scalar that holds a line break is folded (`foldGap`): one line feed reads as a
space, and of several the first is dropped. The lines of a block are read first
(`readBlockLines`) and joined after (`joinLines`).
-/

namespace Evomark.Yaml.Scalar

/-- A problem met while reading something since `start`. -/
def fault (activity : Activity) (start : Mark) (problem : Problem) (c : Cursor) : SyntaxError :=
  ⟨problem, c.mark, some (activity, start)⟩

/-! ## Folding -/

/-- Line breaks between two words, folded. -/
def foldBreaks : List Char → List Char
  | ['\n'] => [' ']
  | '\n' :: more => more
  | breaks => breaks

/-- A gap between two words: its breaks folded, or its blanks where it has none. -/
def foldGap (gap : List Char) : List Char :=
  if gap.any isBreak then foldBreaks (gap.filter isBreak) else gap

/-! ## Plain scalars -/

/-- The surroundings of a plain scalar: whether it is inside a flow collection, and how far its
further lines must be indented outside of one. -/
structure Surroundings where
  inFlow : Bool
  margin : Nat

/-- A plain scalar that has been read. -/
structure Plain where
  text : List Char
  /-- After the text comes a line break that has been passed. -/
  newLine : Bool
  after : Cursor

/-- The character ends a plain scalar in a flow collection. -/
def isFlowMark (c : Char) : Bool := c == ',' || c == '[' || c == ']' || c == '{' || c == '}'

/-- The first tab of a gap that stands in the indentation before column `margin` of a line. -/
def indentingTab? (margin : Nat) (lineStarted : Bool) (mark : Mark) : List Char → Option Mark
  | [] => none
  | c :: rest =>
    if lineStarted && c == '\t' && mark.column < margin then some mark
    else indentingTab? margin (lineStarted || isBreak c) (mark.after c) rest

/-- A plain scalar from the cursor on. -/
def readPlain (s : Surroundings) (start : Mark) (c : Cursor) : Except SyntaxError Plain :=
  match _h : c.rest with
  | [] => .ok ⟨[], false, c⟩
  | x :: _ =>
    if _hx : isGap x = true then
      let gap := c.run isGap
      let newLine := gap.any isBreak
      let after := c.skipWhile isGap
      match indentingTab? s.margin false c.mark gap with
      | some tab => .error ⟨.tabInIndentation, tab, some (.plainScalar, start)⟩
      | none =>
        if (!s.inFlow && after.mark.column < s.margin) || after.atDocumentMarker
            || after.startsWith '#' then
          .ok ⟨[], newLine, after⟩
        else
          match readPlain s start after with
          | .error e => .error e
          | .ok more =>
            if more.text.isEmpty then .ok ⟨[], newLine, after⟩
            else .ok { more with text := foldGap gap ++ more.text }
    else if s.inFlow && x == ':'
        && c.next.startsWithAny (fun y => isFlowMark y || y == '?') then
      .error (fault .plainScalar start .unexpectedColon c)
    else if (x == ':' && c.atLastOfWord) || (s.inFlow && isFlowMark x) then .ok ⟨[], false, c⟩
    else
      match readPlain s start c.next with
      | .error e => .error e
      | .ok more => .ok { more with text := x :: more.text }
termination_by c.rest.length
decreasing_by
  · exact Cursor.length_skipWhile_lt _h _hx
  · exact Cursor.length_next_lt _h

/-! ## Quoted scalars -/

/-- The value of a hexadecimal digit. -/
def hexValue? (c : Char) : Option Nat :=
  if isDigit c then some (c.toNat - '0'.toNat)
  else if 'a' ≤ c && c ≤ 'f' then some (c.toNat - 'a'.toNat + 10)
  else if 'A' ≤ c && c ≤ 'F' then some (c.toNat - 'A'.toNat + 10)
  else none

/-- The character of an escape that stands for one character. -/
def shortEscape? (c : Char) : Option Char :=
  match c with
  | '0' => some '\x00'
  | 'a' => some '\x07'
  | 'b' => some '\x08'
  | 't' => some '\t'
  | '\t' => some '\t'
  | 'n' => some '\n'
  | 'v' => some '\x0b'
  | 'f' => some '\x0c'
  | 'r' => some '\r'
  | 'e' => some '\x1b'
  | ' ' => some ' '
  | '"' => some '"'
  | '/' => some '/'
  | '\\' => some '\\'
  | 'N' => some '\u0085'
  | '_' => some '\u00a0'
  | 'L' => some '\u2028'
  | 'P' => some '\u2029'
  | _ => none

/-- How many hexadecimal digits follow the letter of an escape by code point. -/
def escapeDigits? (c : Char) : Option Nat :=
  match c with
  | 'x' => some 2
  | 'u' => some 4
  | 'U' => some 8
  | _ => none

/-- The number written by `count` hexadecimal digits, after the number read so far. -/
def readHex? : (count value : Nat) → Cursor → Option (Nat × Cursor)
  | 0, value, c => some (value, c)
  | count + 1, value, c => do
    let digit ← c.head?.bind hexValue?
    readHex? count (value * 16 + digit) c.next

/-- A number is a code point of a character. -/
def isCodePoint (n : Nat) : Bool := n < 0xD800 || (0xE000 ≤ n && n ≤ 0x10FFFF)

/-- The character of the escape whose backslash is next, and the cursor after it. -/
def readEscape (start : Mark) (c : Cursor) : Except SyntaxError (Char × Cursor) :=
  match c.next.head? with
  | none => .error (fault .escape start .unknownEscape c)
  | some letter =>
    match shortEscape? letter, escapeDigits? letter with
    | some x, _ => .ok (x, c.skip 2)
    | none, none => .error (fault .escape start .unknownEscape c)
    | none, some count =>
      match readHex? count 0 (c.skip 2) with
      | none => .error (fault .escape start .expectedHexadecimal (c.skip 2))
      | some (n, after) =>
        if isCodePoint n then .ok (Char.ofNat n, after)
        else .error (fault .escape start .invalidCodePoint (c.skip 2))

/-- A result with more characters in front. -/
def prepend (cs : List Char) (result : Except SyntaxError (List Char × Cursor)) :
    Except SyntaxError (List Char × Cursor) :=
  result.map fun (text, after) => (cs ++ text, after)

/-- A quoted scalar whose opening quote has been read, up to and with the closing one. In double
quotes backslashes escape, and a backslash at the end of a line joins the lines; in single quotes
a quote is written twice. -/
def readQuoted (single : Bool) (start : Mark) (c : Cursor) :
    Except SyntaxError (List Char × Cursor) :=
  if c.atDocumentMarker then .error (fault .quotedScalar start .unexpectedMarker c)
  else
    match _h : c.rest with
    | [] => .error (fault .quotedScalar start .unexpectedEnd c)
    | x :: _ =>
      if _hx : isGap x = true then
        prepend (foldGap (c.run isGap)) (readQuoted single start (c.skipWhile isGap))
      else if single && x == '\'' && c.next.startsWith '\'' then
        prepend ['\''] (readQuoted single start c.next.next)
      else if x = if single then '\'' else '"' then .ok ([], c.next)
      else if !single && x == '\\' then
        if c.next.startsWithAny isBreak then
          let after := c.next.next.skipWhile isGap
          prepend ((c.next.next.run isGap).filter isBreak) (readQuoted single start after)
        else
          match readEscape start c with
          | .error e => .error e
          | .ok (y, after) =>
            if _hy : after.rest.length < c.rest.length then
              prepend [y] (readQuoted single start after)
            else .ok ([y], after)
      else prepend [x] (readQuoted single start c.next)
termination_by c.rest.length
decreasing_by
  · exact Cursor.length_skipWhile_lt _h _hx
  · exact Nat.lt_of_le_of_lt (Cursor.length_next_le _) (Cursor.length_next_lt _h)
  · exact Nat.lt_of_le_of_lt (Cursor.length_skipWhile_le _ _)
      (Nat.lt_of_le_of_lt (Cursor.length_next_le _) (Cursor.length_next_lt _h))
  · exact _hy
  · exact Cursor.length_next_lt _h

/-! ## Block scalars -/

/-- What becomes of the line breaks at the end of a block. -/
inductive Chomping
  | strip
  | clip
  | keep
  deriving DecidableEq, Repr

/-- The line after the mark of a block scalar: how its end is treated, and how much deeper than
its surroundings it is indented, if that is said. -/
structure Header where
  chomping : Chomping
  indentation : Option Nat

/-- A line of a block, and the breaks after it: its own and those of empty lines. -/
structure Line where
  text : List Char
  breaks : List Char

/-- The chomping a character stands for. -/
def chomping? (c : Char) : Option Chomping :=
  if c = '+' then some .keep else if c = '-' then some .strip else none

/-- A chomping mark, if one is next. -/
def readChomping (c : Cursor) : Option Chomping × Cursor :=
  match c.head?.bind chomping? with
  | some chomping => (some chomping, c.next)
  | none => (none, c)

/-- A digit for the indentation, if one is next. It is not zero. -/
def readIndentation (start : Mark) (c : Cursor) : Except SyntaxError (Option Nat × Cursor) :=
  match c.head? with
  | some x =>
    if x = '0' then .error (fault .blockScalar start .zeroIndentation c)
    else if isDigit x then .ok (some (x.toNat - '0'.toNat), c.next)
    else .ok (none, c)
  | none => .ok (none, c)

/-- The header of a block scalar and the cursor at the start of its first line. -/
def readHeader (start : Mark) (c : Cursor) : Except SyntaxError (Header × Cursor) := do
  let (early, c) := readChomping c
  let (indentation, c) ← readIndentation start c
  let (late, c) := if early.isNone && indentation.isSome then readChomping c else (none, c)
  let c := c.skipBlanks.skipComment
  if c.atLineEnd then
    return (⟨(early <|> late).getD .clip, indentation⟩, c.skipBreak)
  else throw (fault .blockScalar start .expectedLineEnd c)

/-- The cursor after spaces, up to column `limit`. -/
def skipIndentation (limit : Option Nat) (c : Cursor) : Cursor :=
  let spaces := (c.run (· == ' ')).length
  c.skip (match limit with | some n => min spaces (n - c.mark.column) | none => spaces)

/-- The breaks of the empty lines from the cursor on, the greatest indentation seen there, and the
cursor after the indentation of the line that follows. -/
def readEmptyLines (limit : Option Nat) (start : Mark) (c : Cursor) :
    Except SyntaxError (List Char × Nat × Cursor) :=
  let c' := skipIndentation limit c
  if c'.startsWith '\t' && limit.all (c'.mark.column < ·) then
    .error (fault .blockScalar start .tabForIndentation c')
  else
    match c'.rest with
    | [] => .ok ([], c'.mark.column, c')
    | x :: _ =>
      if isBreak x then
        if _h : c'.next.rest.length < c.rest.length then
          match readEmptyLines limit start c'.next with
          | .error e => .error e
          | .ok (breaks, deepest, after) => .ok (x :: breaks, max c'.mark.column deepest, after)
        else .ok ([], c'.mark.column, c')
      else .ok ([], c'.mark.column, c')
termination_by c.rest.length

/-- The lines of a block, which start in column `indent`, from the start of one of them on. -/
def readBlockLines (indent : Nat) (start : Mark) (c : Cursor) :
    Except SyntaxError (List Line × Cursor) :=
  if c.mark.column = indent && !c.rest.isEmpty then
    let text := c.run (!isBreak ·)
    let c' := c.skipWhile (!isBreak ·)
    match readEmptyLines (some indent) start c'.skipBreak with
    | .error e => .error e
    | .ok (breaks, _, after) =>
      let line : Line := ⟨text, c'.rest.head?.toList ++ breaks⟩
      if _h : after.rest.length < c.rest.length then
        match readBlockLines indent start after with
        | .error e => .error e
        | .ok (lines, last) => .ok (line :: lines, last)
      else .ok ([line], after)
  else .ok ([], c)
termination_by c.rest.length

/-- A line starts with a blank, so that breaks beside it are not folded. -/
def Line.isIndented (line : Line) : Bool := line.text.head?.any isBlank

/-- The text of lines. In a folded block the breaks between two lines fold. -/
def joinLines (folded : Bool) (chomping : Chomping) : List Line → List Char
  | [] => []
  | [last] =>
    last.text ++
      match chomping with
      | .strip => []
      | .clip => last.breaks.take 1
      | .keep => last.breaks
  | line :: next :: more =>
    line.text
      ++ (if folded && !line.isIndented && !next.isIndented then foldBreaks line.breaks
          else line.breaks)
      ++ joinLines folded chomping (next :: more)

/-- A block scalar whose mark has been read. Where its indentation is not said it is that of the
deepest of the lines up to its first text, and at least `margin`. -/
def readBlock (folded : Bool) (margin : Nat) (start : Mark) (c : Cursor) :
    Except SyntaxError (List Char × Cursor) := do
  let (header, c) ← readHeader start c
  let limit := header.indentation.map (margin - 1 + ·)
  let (breaks, deepest, c) ← readEmptyLines limit start c
  let indent := limit.getD (max deepest (max margin 1))
  let (lines, c) ← readBlockLines indent start c
  let opening := if lines.isEmpty && header.chomping != .keep then [] else breaks
  return (opening ++ joinLines folded header.chomping lines, c)

end Evomark.Yaml.Scalar
