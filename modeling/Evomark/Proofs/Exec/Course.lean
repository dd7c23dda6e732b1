import Evomark.Proofs.Exec.Freeze
/-!
# The course of a pass

A pass is the sequence of its steps: each starts in the state that the one before it has left, and the
last may fail or end the pass. `Course` says so of a list of steps, `course_runNodes` that the steps of
a pass are such a list, and `Course.divide` that a course may be divided before any of its steps. Under
the standard rules a course goes onward (`Course.onward`), the hosts of its states stay as they are
bound to names (`ExecState.Linked`), and what is bound to a name is what the last assignment to it has
bound (`Course.bound`).
-/

namespace Evomark

/-- From `s` on these steps are executed, which ends so in the last state. -/
inductive Course (rules : Table ExecRule) :
    ExecState → List (Node × ExecState) → Outcome → ExecState → Prop
  | completed (s : ExecState) : Course rules s [] .completed s
  | failed {n : Node} {s : ExecState} {e : ExecError} (hr : runStep rules n s = .error e) :
    Course rules s [(n, s)] (.failed e) s
  | halted {n m : Node} {s t : ExecState} (hr : runStep rules n s = .ok (m, t)) (ht : t.halted = true) :
    Course rules s [(n, s)] .halted t.last
  | step {n m : Node} {s t u : ExecState} {steps : List (Node × ExecState)} {o : Outcome}
    (hr : runStep rules n s = .ok (m, t)) (ht : t.halted = false) (h : Course rules t.next steps o u) :
    Course rules s ((n, s) :: steps) o u

namespace Course

variable {rules : Table ExecRule} {s u v : ExecState} {o : Outcome} {steps more : List (Node × ExecState)}

/-- Behind a course that completes another may follow. -/
theorem append (h : Course rules s steps .completed u) (h' : Course rules u more o v) :
    Course rules s (steps ++ more) o v := by
  generalize ho : Outcome.completed = o' at h
  induction h with
  | completed => exact h'
  | failed => cases ho
  | halted => cases ho
  | step hr ht _ ih => exact .step hr ht (ih h' ho)

/-- A course is divided before one of its steps. -/
theorem divide {n : Node} (before : List (Node × ExecState)) {after : List (Node × ExecState)}
    (h : Course rules s (before ++ (n, u) :: after) o v) :
    Course rules s before .completed u ∧ Course rules u ((n, u) :: after) o v := by
  induction before generalizing s with
  | nil =>
    have hs : s = u := by cases h <;> rfl
    subst hs
    exact ⟨.completed s, h⟩
  | cons step before ih =>
    -- The list is not empty behind its first step, so that step is not the last.
    rw [List.cons_append] at h
    generalize hsteps : step :: (before ++ (n, u) :: after) = steps at h
    cases h with
    | completed => cases hsteps
    | failed | halted => simp at hsteps
    | step hr ht h =>
      obtain ⟨rfl, rfl⟩ := List.cons.inj hsteps
      obtain ⟨hbefore, hafter⟩ := ih h
      exact ⟨.step hr ht hbefore, hafter⟩

end Course

/-- The steps of a pass are a course. -/
theorem course_runNodes (rules : Table ExecRule) (ns : List Node) (s : ExecState) :
    Course rules s (stepsOf rules ns s) (runNodes rules ns s).outcome (runNodes rules ns s).state := by
  refine runNodes_induct rules (motive := fun ns s w => Course rules s (stepsOf rules ns s) w.outcome w.state)
    ?nil ?marker ?failed ?halted ?executed ?inside ?ended ns s
  case nil =>
    intro s
    rw [stepsOf]
    exact .completed s
  case marker =>
    intro n rest s hm ih
    rw [stepsOf_of_marker hm]
    exact ih
  case failed =>
    intro n rest s e hn hm hr
    rw [stepsOf_of_error hn hm hr]
    exact .failed hr
  case halted =>
    intro n rest s m t hn hm hr ht
    rw [stepsOf_of_halted hn hm hr ht]
    exact .halted hr ht
  case executed =>
    intro n rest s m t hn hm hr ht ih
    rw [stepsOf_of_ok hn hm hr ht]
    exact .step hr ht ih
  case inside =>
    intro label children rest s w hn hw ho ih ihrest
    subst hw
    rw [ho] at ih
    rw [stepsOf_of_completed hn ho]
    exact ih.append ihrest
  case ended =>
    intro label children rest s w hn hw ho ih
    subst hw
    rw [stepsOf_of_ended hn ho]
    exact ih

/-! ## Onward -/

/-- A course of the standard rules goes onward. -/
theorem Course.onward {s u : ExecState} {o : Outcome} {steps : List (Node × ExecState)}
    (h : Course Registry.standard.execution s steps o u) : s.Onward u := by
  induction h with
  | completed s => exact .refl s
  | failed => exact .refl _
  | halted hr => exact (onward_runStep hr).last
  | step hr _ _ ih => exact (onward_runStep hr).next.trans ih

/-! ## Bindings -/

/-- Names are bound to hosts of those names, and all hosts are as the standard rules make them. -/
structure ExecState.Linked (s : ExecState) : Prop where
  sound : s.Sound
  named : ∀ {name id}, s.bound? name = some id → ∃ g, s.host? id = some g ∧ g.name = name

/-- A step binds nothing unless it is an assignment, which binds one host to its name. -/
theorem runStep_bindings {n m : Node} {s t : ExecState}
    (hr : runStep Registry.standard.execution n s = .ok (m, t)) :
    ∃ u, u.bindings = s.bindings ∧ (s.Sound → u.Sound) ∧ s.Onward u ∧
      (n.kind ≠ .varAssign ∧ t = u ∨
        n.kind = .varAssign ∧ ∃ g, g.name = n.content ∧ g.Sound ∧ t = u.bind g) := by
  obtain ⟨u, v, hacts, hv, hbound⟩ := acts_runStep hr
  have hsteady := hacts.steady
  have honward := (ExecState.Onward.refl s).acts hacts
  refine ⟨v, ?_⟩
  obtain rfl | ⟨message, rfl⟩ := hv
  · exact ⟨hsteady.bindings, hsteady.sound, honward, hbound⟩
  · exact ⟨hsteady.bindings, hsteady.sound, honward.fatal message, hbound⟩

namespace ExecState

variable {s t : ExecState}

theorem bound?_bind (s : ExecState) (g : Host) (name : String) :
    (s.bind g).bound? name = if g.name = name then some s.hosts.length else s.bound? name :=
  Table.get?_insert _ _ _ _

theorem host?_bind (s : ExecState) (g : Host) : (s.bind g).host? s.hosts.length = some g := by
  show (s.hosts ++ [g])[s.hosts.length]? = some g
  rw [List.getElem?_append_right (Nat.le_refl _), Nat.sub_self]
  rfl

namespace Linked

theorem ofContext (ctx : Context) : (ofContext ctx).Linked :=
  ⟨fun _ h => absurd h List.not_mem_nil, fun h => nomatch h⟩

theorem onward (h : s.Linked) (ht : s.Onward t) (hb : t.bindings = s.bindings) (hs : t.Sound) : t.Linked := by
  refine ⟨hs, fun {name id} hbound => ?_⟩
  rw [bound?, hb] at hbound
  obtain ⟨g, hg, hname⟩ := h.named hbound
  obtain ⟨g', hg', hgg⟩ := ht.hosts hg
  refine ⟨g', hg', ?_⟩
  rcases hgg with rfl | ⟨cache, rfl, -⟩
  · exact hname
  · exact (g.name_look cache).trans hname

theorem bind (h : s.Linked) {g : Host} (hg : g.Sound) : (s.bind g).Linked := by
  refine ⟨List.forall_mem_append.2 ⟨h.sound, by simpa using hg⟩, fun {name id} hbound => ?_⟩
  rw [bound?_bind] at hbound
  split at hbound
  · rename_i hname
    obtain rfl := Option.some.inj hbound
    exact ⟨g, s.host?_bind g, hname⟩
  · obtain ⟨g', hg', hname⟩ := h.named hbound
    have hid : id < s.hosts.length := (List.getElem?_eq_some_iff.1 hg').1
    exact ⟨g', (List.getElem?_append_left hid).trans hg', hname⟩

theorem runStep (h : s.Linked) {n m : Node}
    (hr : runStep Registry.standard.execution n s = .ok (m, t)) : t.Linked := by
  obtain ⟨u, hb, hs, hu, ⟨-, rfl⟩ | ⟨-, g, -, hg, rfl⟩⟩ := runStep_bindings hr
  · exact h.onward hu hb (hs h.sound)
  · exact (h.onward hu hb (hs h.sound)).bind hg

theorem next (h : s.Linked) : s.next.Linked := ⟨h.sound, h.named⟩

theorem last (h : s.Linked) : s.last.Linked := ⟨h.sound, h.named⟩

end Linked

end ExecState

/-- Names stay linked to their hosts throughout a course. -/
theorem Course.linked {s u : ExecState} {o : Outcome} {steps : List (Node × ExecState)}
    (h : Course Registry.standard.execution s steps o u) (hs : s.Linked) :
    (∀ step ∈ steps, step.2.Linked) ∧ u.Linked := by
  induction h with
  | completed => exact ⟨fun _ h => absurd h List.not_mem_nil, hs⟩
  | failed => exact ⟨by simpa using hs, hs⟩
  | halted hr => exact ⟨by simpa using hs, (hs.runStep hr).last⟩
  | step hr _ _ ih =>
    obtain ⟨hsteps, hu⟩ := ih (hs.runStep hr).next
    exact ⟨List.forall_mem_cons.2 ⟨hs, hsteps⟩, hu⟩

/-- The node assigns to a name. -/
def Node.Assigns (n : Node) (name : String) : Prop := n.kind = .varAssign ∧ n.content = name

/-- What is bound to a name when a course has completed is what its last assignment to the name has
bound; without one it is what was bound before. -/
theorem Course.bound {s u : ExecState} {steps : List (Node × ExecState)}
    (h : Course Registry.standard.execution s steps .completed u) (name : String) :
    (∀ step ∈ steps, ¬ step.1.Assigns name) ∧ u.bound? name = s.bound? name ∨
      ∃ before a v after m t, steps = before ++ (a, v) :: after ∧ a.Assigns name ∧
        (∀ step ∈ after, ¬ step.1.Assigns name) ∧
        runStep Registry.standard.execution a v = .ok (m, t) ∧ u.bound? name = t.bound? name ∧
        t.Onward u := by
  generalize ho : Outcome.completed = o at h
  induction h with
  | completed s => exact .inl ⟨fun _ h => absurd h List.not_mem_nil, rfl⟩
  | failed => cases ho
  | halted => cases ho
  | @step n m s t u steps o hr ht h ih =>
    have honward : t.Onward u := (ExecState.Onward.refl t).next.trans h.onward
    obtain ⟨hnone, hbound⟩ | ⟨before, a, v, after, m', t', hsteps, hlast⟩ := ih ho
    · by_cases ha : n.Assigns name
      · exact .inr ⟨[], n, s, steps, m, t, rfl, ha, hnone, hr, hbound, honward⟩
      · refine .inl ⟨List.forall_mem_cons.2 ⟨ha, hnone⟩, hbound.trans ?_⟩
        show t.bound? name = s.bound? name
        obtain ⟨v, hb, -, -, ⟨-, rfl⟩ | ⟨hk, g, hg, -, rfl⟩⟩ := runStep_bindings hr
        · rw [ExecState.bound?, hb]
          rfl
        · rw [ExecState.bound?_bind, if_neg, ExecState.bound?, hb]
          · rfl
          · exact fun he => ha ⟨hk, hg.symm.trans he⟩
    · exact .inr ⟨(n, s) :: before, a, v, after, m', t', by rw [hsteps]; rfl, hlast⟩

end Evomark
