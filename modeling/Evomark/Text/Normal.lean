import Evomark.Text.Blank
/-!
# Normal forms of text

Two ways to make the layout of a text irrelevant. `normalizeLines` trims every line and drops
the empty ones; it is what prose and literals are stored as. `normalizeText` keeps empty lines
and makes blanks unique: one space between words, none beside a line feed; it is what the text
of a command body is.
-/

namespace Evomark.Text

/-- Every line trimmed, the empty ones dropped, joined by line feeds. -/
def normalizeLines (cs : List Char) : List Char :=
  joinLines (((splitLines cs).map trim).filter (!·.isEmpty))

/-- Each run of spaces and tabs becomes one space. `inRun` says that the character before was
part of a run. -/
def collapseBlanks (inRun : Bool) : List Char → List Char
  | [] => []
  | c :: rest =>
    if isBlank c then
      if inRun then collapseBlanks true rest else ' ' :: collapseBlanks true rest
    else c :: collapseBlanks false rest

/-- Drops the space before and the space after each line feed. `afterBreak` says that the
character before was a line feed. -/
def tightenBreaks (afterBreak : Bool) : List Char → List Char
  | [] => []
  | [c] => if afterBreak && c == ' ' then [] else [c]
  | c :: d :: rest =>
    if c == ' ' && d == '\n' then tightenBreaks false (d :: rest)
    else if afterBreak && c == ' ' then tightenBreaks false (d :: rest)
    else c :: tightenBreaks (c == '\n') (d :: rest)

/-- Blanks collapsed, none beside a line feed, and no white space at either end. -/
def normalizeText (cs : List Char) : List Char :=
  trim (tightenBreaks false (collapseBlanks false cs))

/-- `normalizeLines` of a string. -/
def linesNormalized (s : String) : String := String.ofList (normalizeLines s.toList)

/-- `normalizeText` of a string. -/
def textNormalized (s : String) : String := String.ofList (normalizeText s.toList)

end Evomark.Text
