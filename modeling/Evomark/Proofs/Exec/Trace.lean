import Evomark.Proofs.Exec.Walk
/-!
# The steps of a pass

`stepsOf` lists what a pass executes, each node with the state it is executed in. All of it are
commands of the document (`mem_commandsOf_of_mem_stepsOf`), and what every step keeps holds in all of
these states (`runNodes_invariant`).
-/

namespace Evomark

mutual

/-- What a pass executes, in order: nodes, each with the state it is executed in. -/
def stepsOf (rules : Table ExecRule) : List Node → ExecState → List (Node × ExecState)
  | [], _ => []
  | n :: rest, s =>
    if n.kind.isCommand then
      if n.isMarker then
        match rest with
        | [] => []
        | sep :: more =>
          if n.isWarningMarker && sep.isMarkerSep then stepsOf rules more s
          else stepsOf rules (sep :: more) s
      else
        (n, s) :: match runStep rules n s with
          | .error _ => []
          | .ok (_, t) => if t.halted then [] else stepsOf rules rest t.next
    else
      let (_, t, outcome) := runInside rules n s
      stepsInside rules n s ++ match outcome with
        | .completed => stepsOf rules rest t
        | _ => []

/-- What a pass executes below a node that is not executed itself. -/
def stepsInside (rules : Table ExecRule) : Node → ExecState → List (Node × ExecState)
  | ⟨_, children⟩, s => stepsOf rules children s

end

/-- What is executed from the first node of a list on. -/
theorem stepsOf_cons (rules : Table ExecRule) (n : Node) (rest : List Node) (s : ExecState) :
    stepsOf rules (n :: rest) s =
      if n.kind.isCommand then
        if n.isMarker then stepsOf rules (afterMarker n rest) s
        else
          (n, s) :: match runStep rules n s with
            | .error _ => []
            | .ok (_, t) => if t.halted then [] else stepsOf rules rest t.next
      else
        let inner := runNodes rules n.children s
        stepsOf rules n.children s ++ match inner.outcome with
          | .completed => stepsOf rules rest inner.state
          | _ => [] := by
  obtain ⟨label, children⟩ := n
  cases rest with
  | nil => rfl
  | cons sep more =>
    rw [stepsOf, afterMarker]
    by_cases h : (Node.isWarningMarker ⟨label, children⟩ && sep.isMarkerSep) = true
    · rw [if_pos h, if_pos h]
      rfl
    · rw [if_neg h, if_neg h]
      rfl

section

variable {rules : Table ExecRule} {n m : Node} {rest : List Node} {s t : ExecState}

theorem stepsOf_of_marker (hm : n.isMarker = true) :
    stepsOf rules (n :: rest) s = stepsOf rules (afterMarker n rest) s := by
  simp only [stepsOf_cons, isCommand_of_isMarker hm, hm, if_true]

theorem stepsOf_of_error {e : ExecError} (hn : n.kind.isCommand = true) (hm : n.isMarker = false)
    (hr : runStep rules n s = .error e) : stepsOf rules (n :: rest) s = [(n, s)] := by
  simp [stepsOf_cons, hn, hm, hr]

theorem stepsOf_of_halted (hn : n.kind.isCommand = true) (hm : n.isMarker = false)
    (hr : runStep rules n s = .ok (m, t)) (ht : t.halted = true) :
    stepsOf rules (n :: rest) s = [(n, s)] := by
  simp [stepsOf_cons, hn, hm, hr, ht]

theorem stepsOf_of_ok (hn : n.kind.isCommand = true) (hm : n.isMarker = false)
    (hr : runStep rules n s = .ok (m, t)) (ht : t.halted = false) :
    stepsOf rules (n :: rest) s = (n, s) :: stepsOf rules rest t.next := by
  simp [stepsOf_cons, hn, hm, hr, ht]

variable {label : Label} {children : List Node}

theorem stepsOf_of_completed (hn : label.kind.isCommand = false)
    (hr : (runNodes rules children s).outcome = .completed) :
    stepsOf rules (⟨label, children⟩ :: rest) s =
      stepsOf rules children s ++ stepsOf rules rest (runNodes rules children s).state := by
  have hn' : (Node.mk label children).kind.isCommand = false := hn
  simp [stepsOf_cons, hn', hr]

theorem stepsOf_of_ended (hn : label.kind.isCommand = false)
    (hr : (runNodes rules children s).outcome ≠ .completed) :
    stepsOf rules (⟨label, children⟩ :: rest) s = stepsOf rules children s := by
  have hn' : (Node.mk label children).kind.isCommand = false := hn
  cases ho : (runNodes rules children s).outcome with
  | completed => exact absurd ho hr
  | halted | failed => simp [stepsOf_cons, hn', ho]

end

theorem mem_commandsOf_head {n : Node} {rest : List Node} {i : Nat} (hn : n.kind.isCommand = true) :
    ([i], n) ∈ commandsOf i (n :: rest) := by
  obtain ⟨label, children⟩ := n
  have hn' : label.kind.isCommand = true := hn
  simp [commandsOf, commandsAt, hn']

theorem mem_commandsOf_inside {label : Label} {children rest : List Node} {i : Nat} {c : Node}
    {place : List Nat} (hn : label.kind.isCommand = false) (h : (place, c) ∈ commandsOf 0 children) :
    (i :: place, c) ∈ commandsOf i (⟨label, children⟩ :: rest) := by
  rw [commandsOf, List.mem_append, commandsAt, if_neg (by simp [hn])]
  exact .inl (List.mem_map.2 ⟨_, h, rfl⟩)

theorem mem_commandsOf_afterMarker {n : Node} {rest : List Node} {i : Nat} {c : Node}
    (h : ∀ i, ∃ place, (place, c) ∈ commandsOf i (afterMarker n rest)) :
    ∃ place, (place, c) ∈ commandsOf i (n :: rest) := by
  cases rest with
  | nil => simp [afterMarker, commandsOf] at h
  | cons sep more =>
    simp only [commandsOf, List.mem_append]
    simp only [afterMarker] at h
    split at h
    · obtain ⟨place, h⟩ := h (i + 1 + 1)
      exact ⟨place, .inr (.inr h)⟩
    · obtain ⟨place, h⟩ := h (i + 1)
      exact ⟨place, .inr (by simpa only [commandsOf, List.mem_append] using h)⟩

/-- What a pass executes are commands of the document. -/
theorem mem_commandsOf_of_mem_stepsOf {rules : Table ExecRule} (ns : List Node) (s : ExecState) (i : Nat)
    {step : Node × ExecState} (h : step ∈ stepsOf rules ns s) :
    ∃ place, (place, step.1) ∈ commandsOf i ns := by
  revert i h
  refine runNodes_induct rules
    (motive := fun ns s _ => ∀ i, step ∈ stepsOf rules ns s → ∃ place, (place, step.1) ∈ commandsOf i ns)
    ?nil ?marker ?failed ?halted ?executed ?inside ?ended ns s
  case nil => exact fun _ _ h => by simp [stepsOf] at h
  case marker =>
    intro n rest s hm ih i h
    rw [stepsOf_of_marker hm] at h
    exact mem_commandsOf_afterMarker fun i => ih i h
  case failed =>
    intro n rest s e hn hm hr i h
    rw [stepsOf_of_error hn hm hr, List.mem_singleton] at h
    rw [h]
    exact ⟨[i], mem_commandsOf_head hn⟩
  case halted =>
    intro n rest s m t hn hm hr ht i h
    rw [stepsOf_of_halted hn hm hr ht, List.mem_singleton] at h
    rw [h]
    exact ⟨[i], mem_commandsOf_head hn⟩
  case executed =>
    intro n rest s m t hn hm hr ht ih i h
    rw [stepsOf_of_ok hn hm hr ht, List.mem_cons] at h
    rcases h with rfl | h
    · exact ⟨[i], mem_commandsOf_head hn⟩
    · obtain ⟨place, hp⟩ := ih (i + 1) h
      exact ⟨place, by rw [commandsOf, List.mem_append]; exact .inr hp⟩
  case inside =>
    intro label children rest s w hn hw ho ih ihrest i h
    subst hw
    rw [stepsOf_of_completed hn ho, List.mem_append] at h
    rcases h with h | h
    · obtain ⟨place, hp⟩ := ih 0 h
      exact ⟨i :: place, mem_commandsOf_inside hn hp⟩
    · obtain ⟨place, hp⟩ := ihrest (i + 1) h
      exact ⟨place, by rw [commandsOf, List.mem_append]; exact .inr hp⟩
  case ended =>
    intro label children rest s w hn hw ho ih i h
    subst hw
    rw [stepsOf_of_ended hn ho] at h
    obtain ⟨place, hp⟩ := ih 0 h
    exact ⟨i :: place, mem_commandsOf_inside hn hp⟩

/-- What is kept by every step holds wherever a step starts, and at the end of the walk. -/
theorem runNodes_invariant {rules : Table ExecRule} {I : ExecState → Prop}
    (step : ∀ {n m s t}, I s → runStep rules n s = .ok (m, t) → I t)
    (next : ∀ {s}, I s → I s.next) (last : ∀ {s}, I s → I s.last) (ns : List Node) (s : ExecState)
    (h : I s) : (∀ x ∈ stepsOf rules ns s, I x.2) ∧ I (runNodes rules ns s).state := by
  revert h
  refine runNodes_induct rules
    (motive := fun ns s w => I s → (∀ x ∈ stepsOf rules ns s, I x.2) ∧ I w.state)
    ?nil ?marker ?failed ?halted ?executed ?inside ?ended ns s
  case nil => exact fun s h => ⟨by simp [stepsOf], h⟩
  case marker =>
    intro n rest s hm ih h
    rw [stepsOf_of_marker hm]
    exact ih h
  case failed =>
    intro n rest s e hn hm hr h
    rw [stepsOf_of_error hn hm hr]
    exact ⟨by simpa using h, h⟩
  case halted =>
    intro n rest s m t hn hm hr ht h
    rw [stepsOf_of_halted hn hm hr ht]
    exact ⟨by simpa using h, last (step h hr)⟩
  case executed =>
    intro n rest s m t hn hm hr ht ih h
    rw [stepsOf_of_ok hn hm hr ht, List.forall_mem_cons]
    obtain ⟨hsteps, hend⟩ := ih (next (step h hr))
    exact ⟨⟨h, hsteps⟩, hend⟩
  case inside =>
    intro label children rest s w hn hw ho ih ihrest h
    subst hw
    obtain ⟨hsteps, hinside⟩ := ih h
    obtain ⟨hsteps', hend⟩ := ihrest hinside
    rw [stepsOf_of_completed hn ho, List.forall_mem_append]
    exact ⟨⟨hsteps, hsteps'⟩, hend⟩
  case ended =>
    intro label children rest s w hn hw ho ih h
    subst hw
    rw [stepsOf_of_ended hn ho]
    exact ih h

end Evomark
