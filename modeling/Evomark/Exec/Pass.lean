import Evomark.Exec.Rule
/-!
# Passes over a document

A pass executes the commands of a document from first to last: a use of a variable gets a literal
with the value, an assignment binds a host, a command runs its rule. Commands inside commands are
not executed.

Warnings queued by a step are written behind it, as a `$warning` command with a separator; a step
that ends the pass gets a `$halted_here` command behind it. Both are markers: a later pass takes
them away before it executes the step they stand behind, and takes them away wherever else it
meets them.
-/

namespace Evomark

/-- The name of the command that shows warnings. -/
def warningName : String := "warning"

/-- The name of the command that shows where a pass ended. -/
def haltName : String := "halted_here"

/-- How a pass ended. -/
inductive Outcome
  /-- All commands were executed. -/
  | completed
  /-- A step ended the pass. -/
  | halted
  /-- A step failed. -/
  | failed (cause : ExecError)
  deriving DecidableEq

/-- What a pass made of some nodes. -/
structure Walk where
  nodes : List Node
  state : ExecState
  outcome : Outcome

namespace Node

/-- A marker left by an earlier pass. -/
def isMarker (n : Node) : Bool :=
  n.kind == .cmd && (n.content == warningName || n.content == haltName)

/-- A marker that shows warnings. -/
def isWarningMarker (n : Node) : Bool := n.kind == .cmd && n.content == warningName

/-- A marker that shows where a pass ended. -/
def isHaltMarker (n : Node) : Bool := n.kind == .cmd && n.content == haltName

/-- The separator that belongs to a warning before it. -/
def isMarkerSep (n : Node) : Bool := n.kind == .sep && n.label.sepCount == 1

end Node

/-- The nodes without the markers they start with, and their separators. -/
def stripMarkers : List Node → List Node
  | [] => []
  | n :: rest =>
    if n.isMarker then
      match rest with
      | [] => []
      | sep :: more =>
        if n.isWarningMarker && sep.isMarkerSep then stripMarkers more
        else stripMarkers (sep :: more)
    else n :: rest

/-- No marker is left at the start. -/
theorem stripMarkers_stripMarkers (nodes : List Node) :
    stripMarkers (stripMarkers nodes) = stripMarkers nodes := by
  fun_induction stripMarkers nodes with
  | case1 => rfl
  | case2 => rfl
  | case3 _ _ _ _ _ ih => exact ih
  | case4 _ _ _ _ _ ih => exact ih
  | case5 n rest h =>
    unfold stripMarkers
    exact if_neg h

/-- The marker that shows warnings, with its separator. -/
def warningMarkers (warnings : List String) : List Node :=
  if warnings.isEmpty then []
  else
    let message := String.intercalate "\n" warnings
    let layout := if message.toList.contains '\n' then Layout.block else .inline
    let body : Node :=
      ⟨{ kind := .body, layout := some layout }, [.leaf { kind := .literal, content := message }]⟩
    [⟨{ kind := .cmd, content := warningName }, [body]⟩, .leaf { kind := .sep, value := some (.int 1) }]

/-- The marker that shows where a pass ended. -/
def haltMarker : Node := .leaf { kind := .cmd, content := haltName }

/-- The first node that is no separator is a marker of where a pass ended. -/
def haltIsMarked (nodes : List Node) : Bool :=
  match nodes.dropWhile (·.kind == .sep) with
  | [] => false
  | n :: _ => n.isHaltMarker

/-- A use of a variable: literals below it give way to one with its value. -/
def runUse (n : Node) (s : ExecState) : Except ExecError (Node × ExecState) :=
  match s.bound? n.content with
  | none => .error (.undefinedVariable n.content)
  | some id =>
    let others := n.children.filter (·.kind != .literal)
    let (value, s) := s.look id
    let (text, s) := s.lookText id
    match text, value with
    | some text, some value =>
      let literal : Node := .leaf { kind := .literal, content := text, value := some value }
      .ok (n.withChildren (others ++ [literal]), s)
    | _, _ => .ok (n.withChildren others, s.warn (ExecState.undefinedWarning n.content))

/-- An assignment: its command is executed and the host bound. -/
def runAssignment (rules : Table ExecRule) (n : Node) (s : ExecState) :
    Except ExecError (Node × ExecState) :=
  match n.children with
  | [] => .error (.malformedAssignment n.content)
  | command :: rest =>
    if command.kind != .cmd then .error (.malformedAssignment n.content)
    else match rules.get? command.content with
      | none => .error (.unknownRule command.content)
      | some rule => do
        let done ← rule.run command (some { name := n.content }) s
        let s := match done.host with
          | some h => done.state.bind h
          | none => done.state
        return (n.withChildren (done.command :: rest), s)

/-- One step: a node that is executed, as it stands afterwards. -/
def runStep (rules : Table ExecRule) (n : Node) (s : ExecState) :
    Except ExecError (Node × ExecState) :=
  match n.kind with
  | .varUse => runUse n s
  | .varAssign => runAssignment rules n s
  | .cmd =>
    match rules.get? n.content with
    | none => .error (.unknownRule n.content)
    | some rule => do
      let done ← rule.run n none s
      return (done.command, done.state)
  | kind => .error (.unexpectedNode kind)

mutual

/-- The nodes from here on, executed in order. -/
def runNodes (rules : Table ExecRule) : List Node → ExecState → Walk
  | [], s => ⟨[], s, .completed⟩
  | n :: rest, s =>
    if n.kind.isCommand then
      if n.isMarker then
        match rest with
        | [] => ⟨[], s, .completed⟩
        | sep :: more =>
          if n.isWarningMarker && sep.isMarkerSep then runNodes rules more s
          else runNodes rules (sep :: more) s
      else
        match runStep rules n s with
        | .error e => ⟨n :: stripMarkers rest, s, .failed e⟩
        | .ok (n, s) =>
          let markers := warningMarkers s.warnings
          let s := { s with warnings := [] }
          if s.halted then
            let behind := markers ++ stripMarkers rest
            ⟨n :: if haltIsMarked behind then behind else haltMarker :: behind, s, .halted⟩
          else
            let walk := runNodes rules rest { s with position := s.position + 1 }
            ⟨n :: markers ++ walk.nodes, walk.state, walk.outcome⟩
    else
      let (n, s, outcome) := runInside rules n s
      match outcome with
      | .completed =>
        let walk := runNodes rules rest s
        ⟨n :: walk.nodes, walk.state, walk.outcome⟩
      | outcome => ⟨n :: rest, s, outcome⟩

/-- The commands below a node that is not executed itself. -/
def runInside (rules : Table ExecRule) : Node → ExecState → Node × ExecState × Outcome
  | ⟨label, children⟩, s =>
    let walk := runNodes rules children s
    (⟨label, walk.nodes⟩, walk.state, walk.outcome)

end

/-- A document after a pass. -/
structure Pass where
  document : Node
  /-- The state at the end; of no use but for its evaluations when the pass failed. -/
  state : ExecState
  outcome : Outcome

/-- A pass over a document, seeded with a context. -/
def exec (rules : Table ExecRule) (document : Node) (ctx : Context) : Pass :=
  let (document, state, outcome) := runInside rules document (.ofContext ctx)
  ⟨document, state, outcome⟩

mutual

/-- The commands of a list of nodes, in order, with their places. -/
def commandsOf : Nat → List Node → List (List Nat × Node)
  | _, [] => []
  | i, n :: rest => commandsAt i n ++ commandsOf (i + 1) rest

/-- A node that is a command, or else the commands below it; places start with `i`. -/
def commandsAt (i : Nat) : Node → List (List Nat × Node)
  | ⟨label, children⟩ =>
    if label.kind.isCommand then [([i], ⟨label, children⟩)]
    else (commandsOf 0 children).map fun (place, n) => (i :: place, n)

end

/-- The commands of a document in order of execution, each with the child indices that lead to it. -/
def commandList (document : Node) : List (List Nat × Node) := commandsOf 0 document.children

end Evomark
