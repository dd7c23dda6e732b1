import Evomark.Text.Normal
import Evomark.Document.Node
import Evomark.Markup.Window
/-!
# Literal bodies

The body of a command is not read as markup. `literalNodes` cuts it into literals, uses of
variables, and a separator for each gap of two or more line feeds; a gap with one line feed
stays inside its literal.
-/

namespace Evomark.Markup

/-- The characters of a gap between lines. -/
def isGapChar (c : Char) : Bool := c == '\n' || c == ' ' || c == '\t' || c == '\r'

/-- A run of text, the last character first, as a literal; nothing if it is all white space. -/
def literalOf (reversed : List Char) : List Node :=
  let content := Text.normalizeLines reversed.reverse
  if content.isEmpty then [] else [.leaf { kind := .literal, content := String.ofList content }]

/-- A use of a variable. -/
def useOf (name : String) : Node := .leaf { kind := .varUse, content := name }

/-- A separator that stands for `count` line feeds. -/
def sepOf (count : Nat) : Node := .leaf { kind := .sep, value := some (.int count) }

/-- The nodes of a body, given the text read since the last node, its last character first. -/
def literalNodesFrom (run : List Char) (cs : List Char) : List Node :=
  match cs with
  | [] => literalOf run
  | c :: rest =>
    if Window.startsConstruct '%' (c :: rest) then
      literalOf run ++ useOf (String.ofList (rest.takeWhile Window.isNameChar))
        :: literalNodesFrom [] (rest.dropWhile Window.isNameChar)
    else if c = '\n' then
      let gap := c :: rest.takeWhile isGapChar
      if 2 ≤ gap.count '\n' then
        literalOf run ++ sepOf (gap.count '\n') :: literalNodesFrom [] (rest.dropWhile isGapChar)
      else literalNodesFrom (gap.reverse ++ run) (rest.dropWhile isGapChar)
    else literalNodesFrom (c :: run) rest
termination_by cs.length
decreasing_by
  all_goals
    first
      | exact Nat.lt_succ_of_le (List.dropWhile_suffix _).sublist.length_le
      | exact Nat.lt_succ_self _

/-- The literals, uses and separators of a body. -/
def literalNodes (cs : List Char) : List Node := literalNodesFrom [] cs

end Evomark.Markup
