import Evomark.Document.Tree
import Evomark.Exec.Pass
/-!
# Passes over a tree

`exec` makes a new document; a pass over a `Tree` works on its slots. The commands are listed before
the first of them is executed (`Tree.commands`), and then executed one after the other by their
numbers, while the tree changes around them: literals are put below them, markers behind them, and the
markers of earlier passes are taken away. A number whose node has been taken away in the meantime is
passed over.
-/

namespace Evomark

namespace Tree

mutual

/-- The numbers of the commands below `id`, down to a depth. What is below a command is left out. -/
def commandsBelow (t : Tree) : Nat → Nat → List Nat
  | 0, _ => []
  | depth + 1, id => commandsAmong t depth (t.children id)

/-- The numbers that are commands, with those of the commands below the others. -/
def commandsAmong (t : Tree) : Nat → List Nat → List Nat
  | _, [] => []
  | depth, id :: rest =>
    (if (t.kind id).isCommand then [id] else commandsBelow t depth id) ++ commandsAmong t depth rest

end

/-- The numbers of the commands in order of execution. -/
def commands (t : Tree) : List Nat := t.commandsBelow t.slots.size root

/-- A node without what is below it. -/
def node (t : Tree) (id : Nat) : Node := .leaf (t.label id)

/-! ## Markers -/

/-- The tree without a marker, and without the separator that belongs to it. -/
def consumeMarker (t : Tree) (marker : Nat) : Tree :=
  let t :=
    if (t.node marker).isWarningMarker then
      match t.nextSibling? marker with
      | some sep => if (t.node sep).isMarkerSep then t.remove sep else t
      | none => t
    else t
  t.remove marker

/-- The tree without the markers right behind a node, taken away in so many turns. -/
def stripMarkersWithin (t : Tree) (id : Nat) : Nat → Tree
  | 0 => t
  | turns + 1 =>
    match t.nextSibling? id with
    | none => t
    | some next =>
      if (t.node next).isMarker then (t.consumeMarker next).stripMarkersWithin id turns else t

/-- The tree without the markers right behind a node. Each turn takes away one node at least. -/
def stripMarkersAfter (t : Tree) (id : Nat) : Tree := t.stripMarkersWithin id t.slots.size

/-- The tree with the marker that shows warnings right behind a node, and its separator. -/
def putWarnings (t : Tree) (id : Nat) (warnings : List String) : Tree :=
  if warnings.isEmpty then t
  else
    let message := String.intercalate "\n" warnings
    let layout := if message.toList.contains '\n' then Layout.block else .inline
    let (marker, t) := t.addSibling id { kind := .cmd, content := warningName }
    let (body, t) := t.pushChild marker { kind := .body, layout := some layout }
    let (_, t) := t.pushChild body { kind := .literal, content := message }
    (t.addSibling marker { kind := .sep, value := some (.int 1) }).2

/-- The tree with the marker that shows where a pass ended right behind a node, unless one follows. -/
def putHalt (t : Tree) (id : Nat) : Tree :=
  if ((t.nextMeaningful? id).map fun next => (t.node next).isHaltMarker).getD false then t
  else (t.addSibling id { kind := .cmd, content := haltName }).2

/-! ## Steps -/

/-- The tree with the literal of a result below a command, in place of earlier ones. -/
def attachResult (t : Tree) (id : Nat) (text : String) : Tree :=
  ((t.removeChildren id .literal).pushChild id { kind := .literal, content := text }).2

/-- A use of a variable: literals below it give way to one with its value. -/
def runUse (t : Tree) (id : Nat) (s : ExecState) : Except ExecError (Tree × ExecState) :=
  let name := (t.label id).content
  match s.bound? name with
  | none => .error (.undefinedVariable name)
  | some host =>
    let t := t.removeChildren id .literal
    let (value, s) := s.look host
    let (text, s) := s.lookText host
    match text, value with
    | some text, some value =>
      let literal : Label := { kind := .literal, content := text, value := some value }
      .ok ((t.pushChild id literal).2, s)
    | _, _ => .ok (t, s.warn (ExecState.undefinedWarning name))

/-- `upper` outside an assignment: the result goes through the cache and is attached to the command. -/
def runUpper (t : Tree) (id : Nat) (s : ExecState) : Tree × ExecState :=
  match synthesize s (ExecRule.bodyItems (t.subtree id)) with
  | (none, _, s) => (t, s)
  | (some text, _, s) =>
    let input := ExecRule.upperInput text s.position
    let found := (Deferred.mk input (some (hashOf input "upper")) .uppercaseText).eval s.cache
    let s := s.noteLookup found
    match found.value with
    | some (.string text) => (t.attachResult id text, s)
    | _ => (t, s)

/-- A command is executed, with the host of its assignment if it stands in one. Only `upper` outside an
assignment changes the tree; the other rules read what is below the command. -/
def runRule (t : Tree) (rule : ExecRule) (id : Nat) (host : Option Host) (s : ExecState) :
    Except ExecError (Tree × Option Host × ExecState) :=
  match rule, host with
  | .upper, none =>
    let (t, s) := t.runUpper id s
    .ok (t, none, s)
  | rule, host => do
    let done ← rule.run (t.subtree id) host s
    return (t, done.host, done.state)

/-- An assignment: its command is executed and the host bound. -/
def runAssignment (rules : Table ExecRule) (t : Tree) (id : Nat) (s : ExecState) :
    Except ExecError (Tree × ExecState) :=
  let name := (t.label id).content
  match t.children id with
  | [] => .error (.malformedAssignment name)
  | command :: _ =>
    if t.kind command != .cmd then .error (.malformedAssignment name)
    else match rules.get? (t.label command).content with
      | none => .error (.unknownRule (t.label command).content)
      | some rule => do
        let (t, host, s) ← t.runRule rule command (some { name }) s
        let s := match host with
          | some h => s.bind h
          | none => s
        return (t, s)

/-- One step: a node is executed. -/
def runStep (rules : Table ExecRule) (t : Tree) (id : Nat) (s : ExecState) :
    Except ExecError (Tree × ExecState) :=
  match t.kind id with
  | .varUse => t.runUse id s
  | .varAssign => t.runAssignment rules id s
  | .cmd =>
    match rules.get? (t.label id).content with
    | none => .error (.unknownRule (t.label id).content)
    | some rule => do
      let (t, _, s) ← t.runRule rule id none s
      return (t, s)
  | kind => .error (.unexpectedNode kind)

end Tree

/-! ## Passes -/

/-- A tree after a pass. -/
structure TreePass where
  tree : Tree
  /-- The state at the end; of no use but for its evaluations when the pass failed. -/
  state : ExecState
  outcome : Outcome

namespace Tree

/-- Listed commands executed in order. -/
def runAll (rules : Table ExecRule) : List Nat → Tree → ExecState → TreePass
  | [], t, s => ⟨t, s, .completed⟩
  | id :: rest, t, s =>
    if !t.isAttached id then runAll rules rest t s
    else if (t.node id).isMarker then runAll rules rest (t.consumeMarker id) s
    else
      let t := t.stripMarkersAfter id
      match t.runStep rules id s with
      | .error e => ⟨t, s, .failed e⟩
      | .ok (t, s) =>
        let t := t.putWarnings id s.warnings
        let s := { s with warnings := [] }
        if s.halted then ⟨t.putHalt id, s, .halted⟩
        else runAll rules rest t { s with position := s.position + 1 }

/-- A pass over a tree, seeded with a context. -/
def pass (t : Tree) (rules : Table ExecRule) (ctx : Context) : TreePass :=
  runAll rules t.commands t (.ofContext ctx)

end Tree

end Evomark
