import Evomark.Text.Blank
/-!
# Lines and columns

A place in a text as a line and a column, both counted the way messages show them: lines from
one, columns as the number of bytes of the line before the place.
-/

namespace Evomark.Text

/-- A place in a text. -/
structure Position where
  line : Nat
  column : Nat
  deriving DecidableEq, Repr

/-- The place after one more byte. -/
def Position.after (p : Position) (byte : UInt8) : Position :=
  if byte = 10 then ⟨p.line + 1, 0⟩ else ⟨p.line, p.column + 1⟩

/-- The place after the first `offset` bytes of a text. -/
def positionAt (s : String) (offset : Nat) : Position :=
  (s.toUTF8.data.toList.take offset).foldl Position.after ⟨1, 0⟩

end Evomark.Text
