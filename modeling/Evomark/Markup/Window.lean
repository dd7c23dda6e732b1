import Evomark.Text.Blank
/-!
# Windows onto a source

Reading always looks at a stretch of the source that is still to be read: the whole of it at
first, the inside of a body later. A `Window` is that stretch with the byte offset at which it
starts. Whatever a reader finds depends on the window alone.
-/

namespace Evomark

/-- Source text still to be read, and the offset in bytes at which it starts. -/
structure Window where
  offset : Nat
  chars : List Char
  deriving DecidableEq, Repr

namespace Window

/-- The window onto a whole source. -/
def ofSource (source : String) : Window := ⟨0, source.toList⟩

/-- How many characters are left. -/
def length (w : Window) : Nat := w.chars.length

/-- The offset at which the window ends. -/
def stop (w : Window) : Nat := w.offset + Text.byteLength w.chars

/-- The window after `consumed` has been read from it and `rest` is left. -/
def after (w : Window) (consumed rest : List Char) : Window :=
  ⟨w.offset + Text.byteLength consumed, rest⟩

/-- The window without the characters satisfying `p` that it starts with. -/
def dropWhile (p : Char → Bool) (w : Window) : Window :=
  w.after (w.chars.takeWhile p) (w.chars.dropWhile p)

/-- The window without its first character. -/
def tail (w : Window) : Window := w.after (w.chars.take 1) (w.chars.drop 1)

/-- A character that can start a name. -/
def isNameStart (c : Char) : Bool := ('a' ≤ c && c ≤ 'z') || ('A' ≤ c && c ≤ 'Z') || c == '_'

/-- A character that can stand in a name. -/
def isNameChar (c : Char) : Bool := isNameStart c || ('0' ≤ c && c ≤ '9')

/-- The text starts with `sigil` and a character that can start a name. -/
def startsConstruct (sigil : Char) : List Char → Bool
  | c :: d :: _ => c == sigil && isNameStart d
  | _ => false

/-- The name a window starts with, which may be empty. -/
def name (w : Window) : String := String.ofList (w.chars.takeWhile isNameChar)

/-- The window after the name it starts with. -/
def afterName (w : Window) : Window := w.dropWhile isNameChar

theorem length_dropWhile_le (p : Char → Bool) (w : Window) : (w.dropWhile p).length ≤ w.length :=
  (List.dropWhile_suffix p).sublist.length_le

theorem length_afterName_le (w : Window) : w.afterName.length ≤ w.length :=
  length_dropWhile_le _ w

theorem length_tail_le (w : Window) : w.tail.length ≤ w.length := by
  simp [tail, after, length]

theorem length_tail_lt {w : Window} (h : w.chars ≠ []) : w.tail.length < w.length := by
  cases hw : w.chars with
  | nil => exact absurd hw h
  | cons c rest => simp [tail, after, length, hw]

theorem chars_ne_nil_of_startsConstruct {sigil : Char} {cs : List Char}
    (h : startsConstruct sigil cs = true) : cs ≠ [] := by
  rintro rfl
  simp [startsConstruct] at h

end Window

end Evomark
