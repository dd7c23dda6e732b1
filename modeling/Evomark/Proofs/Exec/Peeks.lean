import Evomark.Exec.Pass
/-!
# Looking at hosts

Rules read a state by looking at hosts. A look may freeze a host and put a value into the cache, and
what has no value is warned of; nothing else of the state changes. `Peeks s t` says that `t` comes
from `s` by looks, `Looks s t` that there may be warnings as well, and each function that reads a state
is shown once to do no more. What looks and warnings keep is then kept by all of them.
-/

namespace Evomark

/-- `require` looks at variables as other rules do. -/
theorem missingNames_eq (names : List String) : ∀ s : ExecState,
    ExecRule.missingNames s names = (resolveNames s names).2 := by
  induction names with
  | nil => exact fun _ => rfl
  | cons name rest ih =>
    intro s
    unfold ExecRule.missingNames resolveNames
    cases s.bound? name with
    | none => simp only [ih]
    | some id => simp only [ih]

/-- What is not resolved is one of the names. -/
theorem mem_of_mem_unresolved {name : String} (names : List String) : ∀ {s : ExecState},
    name ∈ (resolveNames s names).2.1 → name ∈ names := by
  induction names with
  | nil => exact fun h => h
  | cons first rest ih =>
    intro s h
    rw [List.mem_cons]
    unfold resolveNames at h
    split at h
    · exact (List.mem_cons.1 h).imp_right ih
    · simp only at h
      split at h
      · exact .inr (ih h)
      · exact (List.mem_cons.1 h).imp_right ih

/-- `t` is what becomes of `s` when hosts are looked at. -/
inductive Peeks : ExecState → ExecState → Prop
  | refl (s : ExecState) : Peeks s s
  | look {s t : ExecState} (id : Nat) (h : Peeks s t) : Peeks s (t.look id).2

namespace Peeks

variable {s t : ExecState}

theorem lookText (id : Nat) (h : Peeks s t) : Peeks s (t.lookText id).2 := h.look id

theorem resolveNames (names : List String) : ∀ {t : ExecState}, Peeks s t →
    Peeks s (resolveNames t names).2.2 := by
  induction names with
  | nil => exact fun h => h
  | cons name rest ih =>
    intro t h
    unfold Evomark.resolveNames
    split
    · exact ih h
    · exact ih (h.look _)

theorem assemble (items : List Node) : ∀ {t : ExecState} (hosts : List Nat), Peeks s t →
    Peeks s (assemble t hosts items).2 := by
  induction items with
  | nil => exact fun _ h => h
  | cons n rest ih =>
    intro t hosts h
    unfold Evomark.assemble
    split
    · cases hosts with
      | nil => exact ih _ h
      | cons id hosts => exact ih _ (h.lookText id)
    · exact ih _ h
    · exact ih _ h
    · exact ih _ h

/-- Where a text comes out, nothing was warned of. -/
theorem synthesize {items : List Node} {text : String} (h : (synthesize s items).1 = some text) :
    Peeks s (Evomark.synthesize s items).2.2 := by
  have hresolved := (refl s).resolveNames (usedNames items)
  revert h
  unfold Evomark.synthesize
  simp only
  split
  · exact fun _ => hresolved.assemble items _
  · exact fun h => by cases h

end Peeks

/-- `t` is what becomes of `s` when hosts are looked at and warnings queued. -/
inductive Looks : ExecState → ExecState → Prop
  | refl (s : ExecState) : Looks s s
  | look {s t : ExecState} (id : Nat) (h : Looks s t) : Looks s (t.look id).2
  | warn {s t : ExecState} (message : String) (h : Looks s t) : Looks s (t.warn message)

namespace Looks

variable {s t : ExecState}

theorem peeks {u : ExecState} (h : Looks s t) (hp : Peeks t u) : Looks s u := by
  induction hp with
  | refl => exact h
  | look id _ ih => exact ih.look id

theorem warnAll (names : List String) (h : Looks s t) :
    Looks s (names.foldl (fun s name => s.warn (ExecState.undefinedWarning name)) t) := by
  induction names generalizing t with
  | nil => exact h
  | cons name rest ih => exact ih (h.warn _)

theorem synthesize (items : List Node) (h : Looks s t) : Looks s (synthesize t items).2.2 := by
  have hresolved := (Peeks.refl t).resolveNames (usedNames items)
  unfold Evomark.synthesize
  simp only
  split
  · exact h.peeks (hresolved.assemble items _)
  · exact (h.peeks hresolved).warnAll _

theorem storeText (c : Node) (g : Host) (h : Looks s t) : Looks s (ExecRule.storeText c g t).2 :=
  h.synthesize _

theorem missingNames (names : List String) (h : Looks s t) :
    Looks s (ExecRule.missingNames t names).2 := by
  rw [missingNames_eq]
  exact h.peeks ((Peeks.refl t).resolveNames names)

/-- `require` only looks, or it ends the pass and says why. -/
theorem runRequire (s : ExecState) (names : List String) : Looks s (ExecRule.runRequire s names) ∨
    ∃ t message, Looks s t ∧ ExecRule.runRequire s names = t.fatal message := by
  have hlooks := (refl s).missingNames names
  unfold ExecRule.runRequire
  simp only
  split
  · exact .inl hlooks
  · exact .inr ⟨_, _, hlooks, rfl⟩

theorem runUse {n m : Node} (hr : runUse n s = .ok (m, t)) : Looks s t := by
  unfold Evomark.runUse at hr
  split at hr
  · simp at hr
  · rename_i id _
    have hlooked := (refl s).peeks (((Peeks.refl s).look id).lookText id)
    simp only at hr
    split at hr
    · obtain ⟨-, rfl⟩ := Prod.mk.inj (Except.ok.inj hr)
      exact hlooked
    · obtain ⟨-, rfl⟩ := Prod.mk.inj (Except.ok.inj hr)
      exact hlooked.warn _

end Looks

theorem Peeks.looks {s t : ExecState} (h : Peeks s t) : Looks s t := (Looks.refl s).peeks h

end Evomark
