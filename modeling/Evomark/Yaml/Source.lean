/-!
# Places in a YAML text

A `Cursor` is what is left of a text with the place where it starts. Line breaks of every form
are single characters: `normalizeBreaks` turns the forms that read as a line feed into one, and
the separators of lines and paragraphs stay as they are. Every reader of this folder moves the
cursor by `next` and `skipWhile`, so what is left only becomes shorter.
-/

namespace Evomark.Yaml

/-- A place as the number of lines before it and of characters before it in its line. -/
structure Mark where
  line : Nat
  column : Nat
  deriving DecidableEq, Repr, Inhabited

/-- A line break, once breaks are normalised. -/
def isBreak (c : Char) : Bool := c == '\n' || c == '\u2028' || c == '\u2029'

/-- A space or a tab. -/
def isBlank (c : Char) : Bool := c == ' ' || c == '\t'

/-- A character of the gaps between words: a blank or a line break. -/
def isGap (c : Char) : Bool := isBlank c || isBreak c

/-- A decimal digit. -/
def isDigit (c : Char) : Bool := '0' ≤ c && c ≤ '9'

/-- A character of names: a letter, a digit, a line or a hyphen. -/
def isWordChar (c : Char) : Bool :=
  isDigit c || ('a' ≤ c && c ≤ 'z') || ('A' ≤ c && c ≤ 'Z') || c == '_' || c == '-'

/-- A character that may stand in a text: no control except tabs and line breaks. -/
def isAllowed (c : Char) : Bool :=
  let n := c.toNat
  n == 0x09 || n == 0x0A || n == 0x0D || (0x20 ≤ n && n ≤ 0x7E) || n == 0x85
    || (0xA0 ≤ n && n ≤ 0xFFFD) || 0x10000 ≤ n

/-- The text with a line feed for each carriage return, line feed, pair of both, and next-line
character. -/
def normalizeBreaks : List Char → List Char
  | [] => []
  | '\r' :: '\n' :: rest => '\n' :: normalizeBreaks rest
  | c :: rest => (if c = '\r' || c = '\u0085' then '\n' else c) :: normalizeBreaks rest

/-- The place after one more character. -/
def Mark.after (m : Mark) (c : Char) : Mark :=
  if isBreak c then ⟨m.line + 1, 0⟩ else ⟨m.line, m.column + 1⟩

/-- What is left of a text, and where it starts. -/
structure Cursor where
  mark : Mark
  rest : List Char
  deriving Repr, Inhabited

namespace Cursor

/-- The cursor at the start of a text. -/
def ofSource (chars : List Char) : Cursor := ⟨⟨0, 0⟩, normalizeBreaks chars⟩

/-- The next character. -/
def head? (c : Cursor) : Option Char := c.rest.head?

/-- The cursor after the next character. -/
def next (c : Cursor) : Cursor :=
  match c.rest with
  | [] => c
  | x :: rest => ⟨c.mark.after x, rest⟩

/-- The cursor after the next `n` characters. -/
def skip : Nat → Cursor → Cursor
  | 0, c => c
  | n + 1, c => skip n c.next

/-- The longest start of what is left whose characters satisfy `p`. -/
def run (p : Char → Bool) (c : Cursor) : List Char := c.rest.takeWhile p

/-- The cursor after `run p`. -/
def skipWhile (p : Char → Bool) (c : Cursor) : Cursor :=
  ⟨(c.run p).foldl Mark.after c.mark, c.rest.dropWhile p⟩

/-- The next character is `x`. -/
def startsWith (x : Char) (c : Cursor) : Bool := c.rest.head? == some x

/-- The next character exists and satisfies `p`. -/
def startsWithAny (p : Char → Bool) (c : Cursor) : Bool := c.rest.head?.any p

/-- At the end of a word: the next character is none, a blank or a line break. -/
def atWordEnd (c : Cursor) : Bool := c.rest.head?.all isGap

/-- At the end of a line. -/
def atLineEnd (c : Cursor) : Bool := c.rest.head?.all isBreak

/-- After the next character the word ends. -/
def atLastOfWord (c : Cursor) : Bool := c.next.atWordEnd

/-- The line starts with `x` three times and the word ends there. -/
def atRule (x : Char) (c : Cursor) : Bool :=
  c.mark.column == 0 && c.rest.take 3 == [x, x, x] && (c.skip 3).atWordEnd

/-- The line starts with a document marker. -/
def atDocumentMarker (c : Cursor) : Bool := c.atRule '-' || c.atRule '.'

/-- The cursor after a byte order mark, if a line starts with one here. -/
def skipByteOrderMark (c : Cursor) : Cursor :=
  if c.mark.column = 0 && c.startsWith '\uFEFF' then c.next else c

/-- The cursor after blanks. -/
def skipBlanks (c : Cursor) : Cursor := c.skipWhile isBlank

/-- The cursor after a comment, if one starts here. -/
def skipComment (c : Cursor) : Cursor :=
  if c.startsWith '#' then c.skipWhile (!isBreak ·) else c

/-- The cursor after a line break, if there is one here. -/
def skipBreak (c : Cursor) : Cursor := if c.startsWithAny isBreak then c.next else c

theorem length_next_le (c : Cursor) : c.next.rest.length ≤ c.rest.length := by
  unfold next
  split
  · exact Nat.le_refl _
  · next h => simp [h]

theorem length_next_lt {c : Cursor} {x : Char} {rest : List Char} (h : c.rest = x :: rest) :
    c.next.rest.length < c.rest.length := by
  simp [next, h]

theorem length_skipWhile_le (p : Char → Bool) (c : Cursor) :
    (c.skipWhile p).rest.length ≤ c.rest.length :=
  (List.dropWhile_suffix p).sublist.length_le

theorem length_skipWhile_lt {p : Char → Bool} {c : Cursor} {x : Char} {rest : List Char}
    (h : c.rest = x :: rest) (hx : p x = true) :
    (c.skipWhile p).rest.length < c.rest.length := by
  have := (List.dropWhile_suffix p (l := rest)).sublist.length_le
  simp only [skipWhile, h, List.dropWhile_cons, hx, if_true, List.length_cons]
  omega

end Cursor

end Evomark.Yaml
