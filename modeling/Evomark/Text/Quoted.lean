import Evomark.Text.Printable
/-!
# Quoted text for messages

`quoted` shows a text between quotes so that nothing in it is invisible: quotes, backslashes and
the usual controls by short escapes, other characters without a visible form of their own by
their code point.
-/

namespace Evomark.Text

/-- A code point in hexadecimal between braces. -/
def codePointEscape (c : Char) : List Char :=
  ['\\', 'u', '\x7b'] ++ Nat.toDigits 16 c.toNat ++ ['\x7d']

/-- A character as it stands in a quoted text. -/
def quotedChar (c : Char) : List Char :=
  match c with
  | '\x00' => ['\\', '0']
  | '\t' => ['\\', 't']
  | '\r' => ['\\', 'r']
  | '\n' => ['\\', 'n']
  | '"' => ['\\', '"']
  | '\\' => ['\\', '\\']
  | c =>
    if 0x20 ≤ c.toNat && c.toNat < 0x7F then [c]
    else if isGraphemeExtend c || isUnprintable c then codePointEscape c
    else [c]

/-- The text between quotes, everything in it visible. -/
def quoted (s : String) : String :=
  String.ofList ('"' :: s.toList.flatMap quotedChar ++ ['"'])

end Evomark.Text
