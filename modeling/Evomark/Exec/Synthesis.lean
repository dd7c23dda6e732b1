import Evomark.Text.Normal
import Evomark.Document.Node
import Evomark.Exec.State
/-!
# The text of a body

`synthesize` makes a text of literals, uses of variables and separators. Every variable is looked
at first. If any of them has no value there is no text, and one warning for each such use;
otherwise the pieces are put together, a space after each literal and each value, and the result
is normalized. Either way the hosts used are listed in order, `none` for a name without binding.
-/

namespace Evomark

/-- The names of the variables used by some of the nodes, in order. -/
def usedNames (nodes : List Node) : List String :=
  (nodes.filter (·.kind == .varUse)).map (·.content)

/-- Every variable is looked at: the hosts, the names without a value, and the state. -/
def resolveNames (s : ExecState) : List String → List (Option Nat) × List String × ExecState
  | [] => ([], [], s)
  | name :: rest =>
    match s.bound? name with
    | none =>
      let (hosts, missing, s) := resolveNames s rest
      (none :: hosts, name :: missing, s)
    | some id =>
      let (_, s) := s.look id
      let defined := s.isDefined id
      let (hosts, missing, s) := resolveNames s rest
      (some id :: hosts, if defined then missing else name :: missing, s)

/-- The pieces put together. `hosts` are those of the uses among the nodes that are still to come. -/
def assemble (s : ExecState) : List Nat → List Node → List Char × ExecState
  | _, [] => ([], s)
  | hosts, n :: rest =>
    match n.kind with
    | .varUse =>
      match hosts with
      | [] => assemble s [] rest
      | id :: hosts =>
        let (text, s) := s.lookText id
        let (more, s) := assemble s hosts rest
        ((text.getD "").toList ++ ' ' :: more, s)
    | .literal =>
      let (more, s) := assemble s hosts rest
      (n.content.toList ++ ' ' :: more, s)
    | .sep =>
      let (more, s) := assemble s hosts rest
      (List.replicate n.label.sepCount '\n' ++ more, s)
    | _ => assemble s hosts rest

/-- The text of the nodes with the hosts it was made from, or no text and warnings. -/
def synthesize (s : ExecState) (nodes : List Node) :
    Option String × List (Option Nat) × ExecState :=
  let (hosts, missing, s) := resolveNames s (usedNames nodes)
  if missing.isEmpty then
    let (text, s) := assemble s (hosts.filterMap id) nodes
    (some (String.ofList (Text.normalizeText text)), hosts, s)
  else
    (none, hosts, missing.foldl (fun s name => s.warn (ExecState.undefinedWarning name)) s)

end Evomark
