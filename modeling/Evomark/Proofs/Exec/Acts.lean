import Evomark.Proofs.Exec.Peeks
import Evomark.Proofs.Exec.Standard
/-!
# What rules do to a state

A standard rule looks at hosts and queues warnings (`Looks`), saves variables, and puts what comes out of
a deferred content into the cache. `Acts s t` says that `t` comes from `s` by these four, and
`ExecRule.acts_run` that a standard rule does no more, but for `require`, which may end the pass then. A
relation between states that each of the four keeps is then kept by all rules.
-/

namespace Evomark

/-- `t` is what becomes of `s` when hosts are looked at, warnings queued, variables saved and deferred
contents evaluated. -/
inductive Acts (s : ExecState) : ExecState → Prop
  | refl : Acts s s
  | look {t : ExecState} (id : Nat) (h : Acts s t) : Acts s (t.look id).2
  | warn {t : ExecState} (message : String) (h : Acts s t) : Acts s (t.warn message)
  | save {t : ExecState} (name : String) (saved : SavedVar) (h : Acts s t) :
    Acts s { t with saved := t.saved.insert name saved }
  | eval {t : ExecState} (d : Deferred) (h : Acts s t) : Acts s (t.noteLookup (d.eval t.cache))

namespace Acts

variable {s t : ExecState}

theorem looks {u : ExecState} (h : Acts s t) (hl : Looks t u) : Acts s u := by
  induction hl with
  | refl => exact h
  | look id _ ih => exact ih.look id
  | warn message _ ih => exact ih.warn message

/-- A look at a host that is not bound evaluates what it defers, or nothing. -/
theorem noteLook (h : Acts s t) (g : Host) : Acts s (t.noteLookup (g.look t.cache).2) := by
  have hnothing : ∀ value, Acts s (t.noteLookup ⟨value, t.cache, []⟩) := fun value => by
    simpa only [ExecState.noteLookup, List.append_nil] using h
  unfold Host.look
  split
  · exact hnothing _
  · split
    · exact hnothing _
    · exact h.eval _

theorem store (h : Acts s t) (name : String) (type : DataType) (value : Option Json) :
    Acts s (t.store name type value) := by
  unfold ExecState.store
  split
  · exact h.warn _
  · split
    · exact h.save name _
    · exact h.warn _

theorem saveBound (h : Acts s t) (id : Nat) : Acts s (t.saveBound id) := by
  unfold ExecState.saveBound
  simp only
  split
  · exact h.look id
  · exact (h.look id).store _ _ _

theorem saveHost (h : Acts s t) (g : Host) : Acts s (t.saveHost g).2 := (h.noteLook g).store _ _ _

theorem saveNames (h : Acts s t) (names : List String) : Acts s (names.foldl ExecRule.saveName t) := by
  induction names generalizing t with
  | nil => exact h
  | cons name rest ih =>
    refine ih ?_
    unfold ExecRule.saveName
    split
    · exact h.saveBound _
    · exact h.warn _

theorem initText (h : Acts s t) (c : Node) (g : Host) : Acts s (ExecRule.initText c g t).2 := by
  have hstored := h.looks ((Looks.refl t).storeText c g)
  unfold ExecRule.initText
  simp only
  split
  · exact hstored.saveHost _
  · exact hstored

theorem runInit (h : Acts s t) (c : Node) (g : Host) : Acts s (ExecRule.runInit c g t).2 := by
  unfold ExecRule.runInit
  split
  · exact h.look _
  · split
    · exact h.initText c g
    · split
      · exact h
      · exact (h.warn _).initText c g

end Acts

/-- What a standard rule does to the state. `require` may end the pass then. -/
theorem ExecRule.acts_run {rule : ExecRule} (hrule : rule.IsStandard) {c : Node} {host : Option Host}
    {s : ExecState} {done : Executed} (hr : rule.run c host s = .ok done) :
    ∃ t, Acts s t ∧ (done.state = t ∨ rule = .require ∧ ∃ message, done.state = t.fatal message) := by
  have hsame : Acts s s := .refl
  have htext := hsame.looks ((Looks.refl s).synthesize (bodyItems c))
  cases runs_of_run hrule hr with
  | bare => exact ⟨_, hsame, .inl rfl⟩
  | assign g => exact ⟨_, hsame.looks ((Looks.refl s).storeText c g), .inl rfl⟩
  | init g => exact ⟨_, hsame.runInit c g, .inl rfl⟩
  | save => exact ⟨_, hsame.saveNames _, .inl rfl⟩
  | require =>
    obtain hlooks | ⟨t, message, hlooks, hfatal⟩ := Looks.runRequire s (usedNames (bodyItems c))
    · exact ⟨_, hsame.looks hlooks, .inl rfl⟩
    · exact ⟨t, hsame.looks hlooks, .inr ⟨rfl, message, hfatal⟩⟩
  | textless | json | upper => exact ⟨_, htext, .inl rfl⟩
  | malformed => exact ⟨_, htext.warn _, .inl rfl⟩
  | attach _ input =>
    refine ⟨_, ?_, .inl rfl⟩
    unfold attachUpper
    simp only
    split <;> exact htext.eval _

end Evomark
