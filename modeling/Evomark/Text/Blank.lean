/-!
# White space, trimming and lines

Text is handled as a list of characters. White space is the Unicode property of that name
(`isWhite`); `trim` removes it at both ends, `splitLines` cuts at line feeds, and
`joinLines` puts lines together again (`joinLines_splitLines`).
-/

namespace Evomark.Text

/-- The characters with the Unicode property White_Space. -/
def isWhite (c : Char) : Bool :=
  let n := c.toNat
  (9 ≤ n && n ≤ 13) || n == 0x20 || n == 0x85 || n == 0xA0 || n == 0x1680
    || (0x2000 ≤ n && n ≤ 0x200A) || n == 0x2028 || n == 0x2029 || n == 0x202F
    || n == 0x205F || n == 0x3000

/-- A space or a tab. -/
def isBlank (c : Char) : Bool := c == ' ' || c == '\t'

/-- `cs` without the white space it starts with. -/
def trimStart (cs : List Char) : List Char := cs.dropWhile isWhite

/-- `cs` without the characters satisfying `p` that it ends with. -/
def dropEndWhile (p : Char → Bool) (cs : List Char) : List Char :=
  (cs.reverse.dropWhile p).reverse

/-- `cs` without the white space it ends with. -/
def trimEnd (cs : List Char) : List Char := dropEndWhile isWhite cs

/-- `cs` without the white space at either end. -/
def trim (cs : List Char) : List Char := trimEnd (trimStart cs)

/-- The pieces of a text between its line feeds; one more than there are line feeds. -/
def splitLines : List Char → List (List Char)
  | [] => [[]]
  | c :: rest =>
    if c = '\n' then [] :: splitLines rest
    else match splitLines rest with
      | line :: lines => (c :: line) :: lines
      | [] => [[c]]

/-- Lines put together, with `sep` between any two. -/
def join (sep : List Char) : List (List Char) → List Char
  | [] => []
  | [line] => line
  | line :: lines => line ++ sep ++ join sep lines

/-- Lines put together with line feeds. -/
def joinLines (lines : List (List Char)) : List Char := join ['\n'] lines

/-- Every text has a line. -/
theorem splitLines_ne_nil (cs : List Char) : splitLines cs ≠ [] := by
  cases cs with
  | nil => simp [splitLines]
  | cons c rest =>
    simp only [splitLines]
    split
    · simp
    · split <;> simp

/-- Lines put together give the text they were cut from. -/
theorem joinLines_splitLines (cs : List Char) : joinLines (splitLines cs) = cs := by
  induction cs with
  | nil => rfl
  | cons c rest ih =>
    simp only [splitLines]
    split
    · rename_i h
      subst h
      match h : splitLines rest with
      | [] => exact absurd h (splitLines_ne_nil rest)
      | line :: lines =>
        rw [h] at ih
        simpa [joinLines, join] using ih
    · match h : splitLines rest with
      | [] => exact absurd h (splitLines_ne_nil rest)
      | [line] => simpa [joinLines, join, h] using ih
      | line :: next :: lines => simpa [joinLines, join, h] using ih

/-- `n` copies of `cs`. -/
def times (n : Nat) (cs : List Char) : List Char := (List.replicate n cs).flatten

/-- `cs` cut at the first place where `sep` occurs: what is before it and what is after it. -/
def splitAt? (sep : List Char) : List Char → Option (List Char × List Char)
  | [] => if sep.isEmpty then some ([], []) else none
  | c :: rest =>
    if sep.isPrefixOf (c :: rest) then some ([], (c :: rest).drop sep.length)
    else (splitAt? sep rest).map fun (before, after) => (c :: before, after)

/-- The number of bytes of the UTF-8 form of `cs`. -/
def byteLength (cs : List Char) : Nat := cs.foldr (fun c n => c.utf8Size + n) 0

theorem byteLength_nil : byteLength [] = 0 := rfl

theorem byteLength_cons (c : Char) (cs : List Char) :
    byteLength (c :: cs) = c.utf8Size + byteLength cs := rfl

theorem byteLength_append (cs ds : List Char) :
    byteLength (cs ++ ds) = byteLength cs + byteLength ds := by
  induction cs with
  | nil => rw [List.nil_append, byteLength_nil, Nat.zero_add]
  | cons c cs ih => rw [List.cons_append, byteLength_cons, byteLength_cons, ih, Nat.add_assoc]

end Evomark.Text
