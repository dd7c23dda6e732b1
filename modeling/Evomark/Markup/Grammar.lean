import Evomark.Table
/-!
# Rules for bodies

A `BodyRule` says how a body is read. A `Grammar` gives rules to names of functions and of
commands; any other function is a box and any other command has a literal body.
-/

namespace Evomark

/-- How a body is read. -/
inductive BodyRule
  /-- As nested markup. -/
  | box
  /-- As it stands, without being read. -/
  | code
  /-- As literals, uses of variables and separators. -/
  | literal
  /-- As a dictionary of settings, kept under a namespace. -/
  | config (space : String)
  /-- Not at all. -/
  | reject
  /-- As one literal, in upper case. -/
  | shout
  deriving DecidableEq, Repr

/-- The rules of the names of functions and of commands. -/
structure Grammar where
  functions : Table BodyRule
  commands : Table BodyRule

namespace Grammar

/-- The rule of a function name; the rule named `box` stands in for a name without one. -/
def functionRule (g : Grammar) (name : String) : BodyRule :=
  ((g.functions.get? name).or (g.functions.get? "box")).getD .box

/-- The rule of a command name; a command without one has a literal body. -/
def commandRule (g : Grammar) (name : String) : BodyRule := (g.commands.get? name).getD .literal

end Grammar

end Evomark
