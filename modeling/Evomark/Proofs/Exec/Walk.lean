import Evomark.Proofs.Exec.Step
/-!
# How a pass walks over nodes

`runNodes` goes over a list of nodes and into those that are not executed themselves. What it makes
of a list is given here case by case, each with its equation, and `runNodes_induct` is the induction
over these cases: a property of every list, every state and the walk they give holds if it holds of
the empty list, is kept when a marker is passed over, holds where a step fails or ends the pass, and
is kept by a step and by a node with others inside.
-/

namespace Evomark

/-- The state in which the next step starts. -/
def ExecState.next (t : ExecState) : ExecState := { t with warnings := [], position := t.position + 1 }

/-- The state in which a pass ends behind a step. -/
def ExecState.last (t : ExecState) : ExecState := { t with warnings := [] }

/-- What is left behind a marker when it is taken away, with the separator that belongs to it. -/
def afterMarker (marker : Node) : List Node → List Node
  | [] => []
  | sep :: more => if marker.isWarningMarker && sep.isMarkerSep then more else sep :: more

theorem sizeOf_afterMarker_le (marker : Node) (rest : List Node) :
    sizeOf (afterMarker marker rest) ≤ sizeOf rest := by
  cases rest with
  | nil => exact Nat.le_refl _
  | cons sep more =>
    simp only [afterMarker]
    split
    · simp only [List.cons.sizeOf_spec]
      omega
    · exact Nat.le_refl _

theorem isCommand_of_isMarker {n : Node} (h : n.isMarker = true) : n.kind.isCommand = true := by
  simp only [Node.isMarker, Bool.and_eq_true, beq_iff_eq] at h
  rw [h.1]
  rfl

/-- The marker of warnings stands in front of its separator. -/
theorem warningMarkers_cases (warnings : List String) :
    warningMarkers warnings = [] ∨ ∃ marker sep, warningMarkers warnings = [marker, sep] ∧
      marker.isMarker = true ∧ marker.isWarningMarker = true ∧ sep.isMarkerSep = true := by
  unfold warningMarkers
  split
  · exact .inl rfl
  · exact .inr ⟨_, _, rfl, rfl, rfl, rfl⟩

theorem stripMarkers_warningMarkers (warnings : List String) (rest : List Node) :
    stripMarkers (warningMarkers warnings ++ rest) = stripMarkers rest := by
  obtain h | ⟨marker, sep, h, hm, hw, hs⟩ := warningMarkers_cases warnings
  · rw [h, List.nil_append]
  · rw [h]
    simp [stripMarkers, hm, hw, hs]

theorem stripMarkers_haltMarker (rest : List Node) :
    stripMarkers (haltMarker :: rest) = stripMarkers rest := by
  cases rest with
  | nil => rfl
  | cons n rest => rfl

/-- What stands behind a step that ends the pass: the marker of that, the warnings of the step, and
what was there before without markers in front. -/
def behindHalt (warnings : List String) (rest : List Node) : List Node :=
  let behind := warningMarkers warnings ++ stripMarkers rest
  if haltIsMarked behind then behind else haltMarker :: behind

theorem stripMarkers_behindHalt (warnings : List String) (rest : List Node) :
    stripMarkers (behindHalt warnings rest) = stripMarkers rest := by
  unfold behindHalt
  simp only
  split
  · rw [stripMarkers_warningMarkers, stripMarkers_stripMarkers]
  · rw [stripMarkers_haltMarker, stripMarkers_warningMarkers, stripMarkers_stripMarkers]

/-- What a walk does at its first node. -/
theorem runNodes_cons (rules : Table ExecRule) (n : Node) (rest : List Node) (s : ExecState) :
    runNodes rules (n :: rest) s =
      if n.kind.isCommand then
        if n.isMarker then runNodes rules (afterMarker n rest) s
        else
          match runStep rules n s with
          | .error e => ⟨n :: stripMarkers rest, s, .failed e⟩
          | .ok (m, t) =>
            if t.halted then ⟨m :: behindHalt t.warnings rest, t.last, .halted⟩
            else
              let walk := runNodes rules rest t.next
              ⟨m :: (warningMarkers t.warnings ++ walk.nodes), walk.state, walk.outcome⟩
      else
        let inner := runNodes rules n.children s
        match inner.outcome with
        | .completed =>
          let walk := runNodes rules rest inner.state
          ⟨⟨n.label, inner.nodes⟩ :: walk.nodes, walk.state, walk.outcome⟩
        | outcome => ⟨⟨n.label, inner.nodes⟩ :: rest, inner.state, outcome⟩ := by
  obtain ⟨label, children⟩ := n
  cases rest with
  | nil => rfl
  | cons sep more =>
    rw [runNodes, afterMarker]
    by_cases h : (Node.isWarningMarker ⟨label, children⟩ && sep.isMarkerSep) = true
    · rw [if_pos h, if_pos h]
      rfl
    · rw [if_neg h, if_neg h]
      rfl

section

variable {rules : Table ExecRule} {n m : Node} {rest : List Node} {s t : ExecState}

theorem runNodes_of_marker (hm : n.isMarker = true) :
    runNodes rules (n :: rest) s = runNodes rules (afterMarker n rest) s := by
  simp only [runNodes_cons, isCommand_of_isMarker hm, hm, if_true]

theorem runNodes_of_error {e : ExecError} (hn : n.kind.isCommand = true) (hm : n.isMarker = false)
    (hr : runStep rules n s = .error e) :
    runNodes rules (n :: rest) s = ⟨n :: stripMarkers rest, s, .failed e⟩ := by
  simp [runNodes_cons, hn, hm, hr]

theorem runNodes_of_halted (hn : n.kind.isCommand = true) (hm : n.isMarker = false)
    (hr : runStep rules n s = .ok (m, t)) (ht : t.halted = true) :
    runNodes rules (n :: rest) s = ⟨m :: behindHalt t.warnings rest, t.last, .halted⟩ := by
  simp [runNodes_cons, hn, hm, hr, ht]

theorem runNodes_of_ok (hn : n.kind.isCommand = true) (hm : n.isMarker = false)
    (hr : runStep rules n s = .ok (m, t)) (ht : t.halted = false) :
    runNodes rules (n :: rest) s =
      ⟨m :: (warningMarkers t.warnings ++ (runNodes rules rest t.next).nodes),
        (runNodes rules rest t.next).state, (runNodes rules rest t.next).outcome⟩ := by
  simp [runNodes_cons, hn, hm, hr, ht]

variable {label : Label} {children : List Node}

theorem runNodes_of_completed (hn : label.kind.isCommand = false)
    (hr : (runNodes rules children s).outcome = .completed) :
    runNodes rules (⟨label, children⟩ :: rest) s =
      ⟨⟨label, (runNodes rules children s).nodes⟩ ::
          (runNodes rules rest (runNodes rules children s).state).nodes,
        (runNodes rules rest (runNodes rules children s).state).state,
        (runNodes rules rest (runNodes rules children s).state).outcome⟩ := by
  have hn' : (Node.mk label children).kind.isCommand = false := hn
  simp [runNodes_cons, hn', hr]

theorem runNodes_of_ended (hn : label.kind.isCommand = false)
    (hr : (runNodes rules children s).outcome ≠ .completed) :
    runNodes rules (⟨label, children⟩ :: rest) s =
      ⟨⟨label, (runNodes rules children s).nodes⟩ :: rest, (runNodes rules children s).state,
        (runNodes rules children s).outcome⟩ := by
  have hn' : (Node.mk label children).kind.isCommand = false := hn
  cases ho : (runNodes rules children s).outcome with
  | completed => exact absurd ho hr
  | halted | failed => simp [runNodes_cons, hn', ho]

end

/-- Induction over a walk. -/
theorem runNodes_induct (rules : Table ExecRule) {motive : List Node → ExecState → Walk → Prop}
    (nil : ∀ s, motive [] s ⟨[], s, .completed⟩)
    (marker : ∀ n rest s, n.isMarker = true →
      motive (afterMarker n rest) s (runNodes rules (afterMarker n rest) s) →
      motive (n :: rest) s (runNodes rules (afterMarker n rest) s))
    (failed : ∀ n rest s e, n.kind.isCommand = true → n.isMarker = false →
      runStep rules n s = .error e → motive (n :: rest) s ⟨n :: stripMarkers rest, s, .failed e⟩)
    (halted : ∀ n rest s m t, n.kind.isCommand = true → n.isMarker = false →
      runStep rules n s = .ok (m, t) → t.halted = true →
      motive (n :: rest) s ⟨m :: behindHalt t.warnings rest, t.last, .halted⟩)
    (executed : ∀ n rest s m t, n.kind.isCommand = true → n.isMarker = false →
      runStep rules n s = .ok (m, t) → t.halted = false →
      motive rest t.next (runNodes rules rest t.next) →
      motive (n :: rest) s
        ⟨m :: (warningMarkers t.warnings ++ (runNodes rules rest t.next).nodes),
          (runNodes rules rest t.next).state, (runNodes rules rest t.next).outcome⟩)
    (inside : ∀ label children rest s (w : Walk), label.kind.isCommand = false →
      runNodes rules children s = w → w.outcome = .completed → motive children s w →
      motive rest w.state (runNodes rules rest w.state) →
      motive (⟨label, children⟩ :: rest) s
        ⟨⟨label, w.nodes⟩ :: (runNodes rules rest w.state).nodes, (runNodes rules rest w.state).state,
          (runNodes rules rest w.state).outcome⟩)
    (ended : ∀ label children rest s (w : Walk), label.kind.isCommand = false →
      runNodes rules children s = w → w.outcome ≠ .completed → motive children s w →
      motive (⟨label, children⟩ :: rest) s ⟨⟨label, w.nodes⟩ :: rest, w.state, w.outcome⟩)
    (ns : List Node) (s : ExecState) : motive ns s (runNodes rules ns s) := by
  have again := fun (ms : List Node) (t : ExecState) (_ : sizeOf ms < sizeOf ns) =>
    runNodes_induct rules nil marker failed halted executed inside ended ms t
  match ns with
  | [] =>
    rw [runNodes]
    exact nil s
  | n :: rest =>
    have hrest : sizeOf rest < sizeOf (n :: rest) := by simp only [List.cons.sizeOf_spec]; omega
    by_cases hn : n.kind.isCommand = true
    · by_cases hm : n.isMarker = true
      · rw [runNodes_of_marker hm]
        exact marker n rest s hm (again _ s (Nat.lt_of_le_of_lt (sizeOf_afterMarker_le n rest) hrest))
      · have hm : n.isMarker = false := by simpa using hm
        cases hr : runStep rules n s with
        | error e =>
          rw [runNodes_of_error hn hm hr]
          exact failed n rest s e hn hm hr
        | ok r =>
          obtain ⟨m, t⟩ := r
          by_cases ht : t.halted = true
          · rw [runNodes_of_halted hn hm hr ht]
            exact halted n rest s m t hn hm hr ht
          · have ht : t.halted = false := by simpa using ht
            rw [runNodes_of_ok hn hm hr ht]
            exact executed n rest s m t hn hm hr ht (again rest t.next hrest)
    · have hn : n.kind.isCommand = false := by simpa using hn
      obtain ⟨label, children⟩ := n
      have hchildren : sizeOf children < sizeOf (Node.mk label children :: rest) := by
        simp only [List.cons.sizeOf_spec, Node.mk.sizeOf_spec]
        omega
      by_cases ho : (runNodes rules children s).outcome = .completed
      · rw [runNodes_of_completed hn ho]
        exact inside label children rest s _ hn rfl ho (again children s hchildren) (again rest _ hrest)
      · rw [runNodes_of_ended hn ho]
        exact ended label children rest s _ hn rfl ho (again children s hchildren)
termination_by sizeOf ns

end Evomark
