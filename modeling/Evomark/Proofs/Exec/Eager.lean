import Evomark.Proofs.Exec.Trace
/-!
# Passes without deferred values

`execEager` is a pass in which `upper` computes the text at once: in an assignment it sets the
content of the host, and otherwise it attaches the text to the command. Nothing is deferred in it and
nothing is taken from the cache. It is what a pass means without the cache.

A pass is a walk over nodes by steps (`walkWith`). The steps of an eager pass differ from those of
`runNodes` in the rule `upper` only (`runNodes_eq_walkWith`).
-/

namespace Evomark

/-- What executes a rule. -/
abbrev RuleRunner := ExecRule → Node → Option Host → ExecState → Except ExecError Executed

/-- Executes a command like `ExecRule.run`, but `upper` computes the text at once. -/
def ExecRule.runEager : RuleRunner
  | upper, command, host, s =>
    match synthesize s (bodyItems command) with
    | (none, _, s) => .ok ⟨command, host, s⟩
    | (some text, dependencies, s) =>
      let result := Text.uppercase text
      match host with
      | some h =>
        .ok ⟨command, some (({ h with type := .str, dependencies }).setContent (some (.string result))), s⟩
      | none => .ok ⟨attachResult command result, none, s⟩
  | rule, command, host, s => rule.run command host s

section

variable (run : RuleRunner) (rules : Table ExecRule)

/-- An assignment whose command is executed by `run`. -/
def assignWith (n : Node) (s : ExecState) : Except ExecError (Node × ExecState) :=
  match n.children with
  | [] => .error (.malformedAssignment n.content)
  | command :: rest =>
    if command.kind != .cmd then .error (.malformedAssignment n.content)
    else match rules.get? command.content with
      | none => .error (.unknownRule command.content)
      | some rule => do
        let done ← run rule command (some { name := n.content }) s
        let s := match done.host with
          | some h => done.state.bind h
          | none => done.state
        return (n.withChildren (done.command :: rest), s)

/-- One step in which rules are executed by `run`. -/
def stepWith (n : Node) (s : ExecState) : Except ExecError (Node × ExecState) :=
  match n.kind with
  | .varUse => runUse n s
  | .varAssign => assignWith run rules n s
  | .cmd =>
    match rules.get? n.content with
    | none => .error (.unknownRule n.content)
    | some rule => do
      let done ← run rule n none s
      return (done.command, done.state)
  | kind => .error (.unexpectedNode kind)

end

section

variable (step : Node → ExecState → Except ExecError (Node × ExecState))

mutual

/-- The nodes from here on, executed in order by `step`. -/
def walkWith : List Node → ExecState → Walk
  | [], s => ⟨[], s, .completed⟩
  | n :: rest, s =>
    if n.kind.isCommand then
      if n.isMarker then
        match rest with
        | [] => ⟨[], s, .completed⟩
        | sep :: more =>
          if n.isWarningMarker && sep.isMarkerSep then walkWith more s
          else walkWith (sep :: more) s
      else
        match step n s with
        | .error e => ⟨n :: stripMarkers rest, s, .failed e⟩
        | .ok (m, t) =>
          if t.halted then ⟨m :: behindHalt t.warnings rest, t.last, .halted⟩
          else
            let walk := walkWith rest t.next
            ⟨m :: (warningMarkers t.warnings ++ walk.nodes), walk.state, walk.outcome⟩
    else
      let (n, s, outcome) := walkInside n s
      match outcome with
      | .completed =>
        let walk := walkWith rest s
        ⟨n :: walk.nodes, walk.state, walk.outcome⟩
      | outcome => ⟨n :: rest, s, outcome⟩

/-- The commands below a node that is not executed itself. -/
def walkInside : Node → ExecState → Node × ExecState × Outcome
  | ⟨label, children⟩, s =>
    let walk := walkWith children s
    (⟨label, walk.nodes⟩, walk.state, walk.outcome)

end

end

/-- A pass over a document without deferred values, seeded with saved variables. -/
def execEager (rules : Table ExecRule) (document : Node) (saved : Table SavedVar) : Pass :=
  let (document, state, outcome) :=
    walkInside (stepWith ExecRule.runEager rules) document (.ofContext ⟨[], saved⟩)
  ⟨document, state, outcome⟩

/-! ## How `walkWith` walks -/

section

variable {step : Node → ExecState → Except ExecError (Node × ExecState)} {n m : Node} {rest : List Node}
  {s t : ExecState}

/-- What a walk does at its first node. -/
theorem walkWith_cons (step : Node → ExecState → Except ExecError (Node × ExecState)) (n : Node)
    (rest : List Node) (s : ExecState) :
    walkWith step (n :: rest) s =
      if n.kind.isCommand then
        if n.isMarker then walkWith step (afterMarker n rest) s
        else
          match step n s with
          | .error e => ⟨n :: stripMarkers rest, s, .failed e⟩
          | .ok (m, t) =>
            if t.halted then ⟨m :: behindHalt t.warnings rest, t.last, .halted⟩
            else
              let walk := walkWith step rest t.next
              ⟨m :: (warningMarkers t.warnings ++ walk.nodes), walk.state, walk.outcome⟩
      else
        let inner := walkWith step n.children s
        match inner.outcome with
        | .completed =>
          let walk := walkWith step rest inner.state
          ⟨⟨n.label, inner.nodes⟩ :: walk.nodes, walk.state, walk.outcome⟩
        | outcome => ⟨⟨n.label, inner.nodes⟩ :: rest, inner.state, outcome⟩ := by
  obtain ⟨label, children⟩ := n
  cases rest with
  | nil => rfl
  | cons sep more =>
    rw [walkWith, afterMarker]
    by_cases h : (Node.isWarningMarker ⟨label, children⟩ && sep.isMarkerSep) = true
    · rw [if_pos h, if_pos h]
      rfl
    · rw [if_neg h, if_neg h]
      rfl

theorem walkWith_of_marker (hm : n.isMarker = true) :
    walkWith step (n :: rest) s = walkWith step (afterMarker n rest) s := by
  simp only [walkWith_cons, isCommand_of_isMarker hm, hm, if_true]

theorem walkWith_of_error {e : ExecError} (hn : n.kind.isCommand = true) (hm : n.isMarker = false)
    (hr : step n s = .error e) :
    walkWith step (n :: rest) s = ⟨n :: stripMarkers rest, s, .failed e⟩ := by
  simp [walkWith_cons, hn, hm, hr]

theorem walkWith_of_halted (hn : n.kind.isCommand = true) (hm : n.isMarker = false)
    (hr : step n s = .ok (m, t)) (ht : t.halted = true) :
    walkWith step (n :: rest) s = ⟨m :: behindHalt t.warnings rest, t.last, .halted⟩ := by
  simp [walkWith_cons, hn, hm, hr, ht]

theorem walkWith_of_ok (hn : n.kind.isCommand = true) (hm : n.isMarker = false)
    (hr : step n s = .ok (m, t)) (ht : t.halted = false) :
    walkWith step (n :: rest) s =
      ⟨m :: (warningMarkers t.warnings ++ (walkWith step rest t.next).nodes),
        (walkWith step rest t.next).state, (walkWith step rest t.next).outcome⟩ := by
  simp [walkWith_cons, hn, hm, hr, ht]

variable {label : Label} {children : List Node}

theorem walkWith_of_completed (hn : label.kind.isCommand = false)
    (hr : (walkWith step children s).outcome = .completed) :
    walkWith step (⟨label, children⟩ :: rest) s =
      ⟨⟨label, (walkWith step children s).nodes⟩ ::
          (walkWith step rest (walkWith step children s).state).nodes,
        (walkWith step rest (walkWith step children s).state).state,
        (walkWith step rest (walkWith step children s).state).outcome⟩ := by
  have hn' : (Node.mk label children).kind.isCommand = false := hn
  simp [walkWith_cons, hn', hr]

theorem walkWith_of_ended (hn : label.kind.isCommand = false)
    (hr : (walkWith step children s).outcome ≠ .completed) :
    walkWith step (⟨label, children⟩ :: rest) s =
      ⟨⟨label, (walkWith step children s).nodes⟩ :: rest, (walkWith step children s).state,
        (walkWith step children s).outcome⟩ := by
  have hn' : (Node.mk label children).kind.isCommand = false := hn
  cases ho : (walkWith step children s).outcome with
  | completed => exact absurd ho hr
  | halted | failed => simp [walkWith_cons, hn', ho]

end

theorem runStep_eq_stepWith (rules : Table ExecRule) : runStep rules = stepWith ExecRule.run rules := rfl

/-- A pass is a walk by its own steps. -/
theorem runNodes_eq_walkWith (rules : Table ExecRule) (ns : List Node) (s : ExecState) :
    runNodes rules ns s = walkWith (stepWith ExecRule.run rules) ns s := by
  rw [← runStep_eq_stepWith]
  refine runNodes_induct rules (motive := fun ns s w => w = walkWith (runStep rules) ns s)
    ?nil ?marker ?failed ?halted ?executed ?inside ?ended ns s
  case nil =>
    intro s
    rw [walkWith]
  case marker =>
    intro n rest s hm ih
    rw [ih, walkWith_of_marker hm]
  case failed =>
    intro n rest s e hn hm hr
    rw [walkWith_of_error hn hm hr]
  case halted =>
    intro n rest s m t hn hm hr ht
    rw [walkWith_of_halted hn hm hr ht]
  case executed =>
    intro n rest s m t hn hm hr ht ih
    rw [walkWith_of_ok hn hm hr ht, ih]
  case inside =>
    intro label children rest s w hn hw ho ih ihrest
    rw [ih] at ho
    rw [walkWith_of_completed hn ho, ihrest, ih]
  case ended =>
    intro label children rest s w hn hw ho ih
    rw [ih] at ho
    rw [walkWith_of_ended hn ho, ih]

end Evomark
