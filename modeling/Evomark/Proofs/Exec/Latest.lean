import Evomark.Proofs.Exec.Course
import Evomark.Proofs.Exec.Marked
/-!
# Uses show the latest value

A use of a variable shows what its step has found at the host that was bound to the name at that
moment: the host of the nearest assignment before it (`Course.bound`). Values may be computed as late as
that, but hosts freeze, so at the end of the pass a look at the host still finds the value that is shown
(`Course.shows`). The literal, or the warning in its place, is neither moved nor changed by the
steps that follow, which only write behind their own nodes (`exists_leaves`).
-/

namespace Evomark

/-- The literals below a node. -/
def Node.literals (n : Node) : List Node := n.children.filter (·.kind == .literal)

/-- The literal that shows a value of a type. -/
def valueLiteral (type : DataType) (value : Json) : Node :=
  .leaf { kind := .literal, content := Host.textOf type value, value := some value }

/-- The step of a use shows what a look at the host finds: a literal with the value, or a warning that
there is none. -/
def Ran.Shows (r : Ran) (g : Host) (cache : Table Json) : Prop :=
  match (g.look cache).2.value with
  | some value => r.node.literals = [valueLiteral g.type value] ∧ r.warnings = []
  | none => r.node.literals = [] ∧ r.warnings = [ExecState.undefinedWarning r.node.content]

/-! ## The step of a use -/

/-- A use looks at the host that is bound to its name, and shows what it finds. -/
theorem runUse_of_host? {n : Node} {s : ExecState} {id : Nat} {g : Host}
    (hb : s.bound? n.content = some id) (hg : s.host? id = some g) :
    runUse n s = .ok (match (g.look s.cache).2.value with
      | some value => (n.withChildren (n.children.filter (·.kind != .literal) ++ [valueLiteral g.type value]),
          (s.look id).2)
      | none => (n.withChildren (n.children.filter (·.kind != .literal)),
          (s.look id).2.warn (ExecState.undefinedWarning n.content))) := by
  have hlooked : (s.look id).2.host? id = some (g.look s.cache).1 := by
    rw [ExecState.host?_look, if_pos rfl, hg]
    rfl
  have hvalue : (s.look id).1 = (g.look s.cache).2.value := congrArg Prod.fst (ExecState.look_of_host? hg)
  have hfinal := g.isFinal_look s.cache
  have htext := ExecState.lookText_of_host? hlooked
  rw [Host.look_of_isFinal hfinal, ExecState.look_of_isFinal hlooked hfinal, Host.held_look,
    Host.type_look] at htext
  unfold runUse
  simp only [hb, htext, hvalue]
  cases (g.look s.cache).2.value <;> rfl

/-- The literals of a use are those that have just been put behind its other children. -/
theorem literals_append (n : Node) (more : List Node) :
    (n.withChildren (n.children.filter (·.kind != .literal) ++ more)).literals =
      more.filter (·.kind == .literal) := by
  have hnone : (n.children.filter (·.kind != .literal)).filter (·.kind == .literal) = [] := by
    rw [List.filter_filter, List.filter_eq_nil_iff]
    intro m _
    cases m.kind <;> decide
  show (n.children.filter _ ++ more).filter _ = _
  rw [List.filter_append, hnone, List.nil_append]

/-- What the step of a use leaves shows what a look at the host of its name finds. -/
theorem shows_of_runUse {n m : Node} {s t : ExecState} {id : Nat} {g : Host} (hb : s.bound? n.content = some id)
    (hg : s.host? id = some g) (hw : s.warnings = []) (hr : runUse n s = .ok (m, t)) :
    t.cache = (g.look s.cache).2.cache ∧
      ∀ r : Ran, r.node = m → r.warnings = t.warnings → r.Shows g s.cache := by
  have hlook : (s.look id).2.warnings = [] ∧ (s.look id).2.cache = (g.look s.cache).2.cache := by
    rw [ExecState.look_of_host? hg]
    exact ⟨hw, rfl⟩
  rw [runUse_of_host? hb hg] at hr
  unfold Ran.Shows
  cases hv : (g.look s.cache).2.value with
  | some value =>
    simp only [hv] at hr
    obtain ⟨rfl, rfl⟩ := Prod.mk.inj (Except.ok.inj hr)
    refine ⟨hlook.2, fun r hn hwarnings => ⟨?_, hwarnings.trans hlook.1⟩⟩
    exact hn ▸ literals_append n [valueLiteral g.type value]
  | none =>
    simp only [hv] at hr
    obtain ⟨rfl, rfl⟩ := Prod.mk.inj (Except.ok.inj hr)
    have hempty := literals_append n []
    rw [List.append_nil] at hempty
    refine ⟨hlook.2, fun r hn hwarnings => ⟨hn ▸ hempty, ?_⟩⟩
    rw [hwarnings, hn]
    show (s.look id).2.warnings ++ _ = _
    rw [hlook.1]
    rfl

/-- Whatever is computed or bound later, a use goes on showing what a look at its host finds. -/
theorem Ran.Shows.later {r : Ran} {g : Host} {cache kept : Table Json} (h : r.Shows g cache) (hs : g.Sound)
    (hk : (g.look cache).2.cache.Sub kept) : r.Shows g kept := by
  unfold Ran.Shows at h ⊢
  rwa [(hs.look_eq hk).2]

/-- What a use shows of a host it shows of the host that this one was when it was bound. -/
theorem Ran.Shows.earlier {r : Ran} {g h : Host} {kept : Table Json} (hshows : r.Shows h kept)
    (hgh : Host.Onward kept g h) (hs : g.Sound) : r.Shows g kept := by
  unfold Ran.Shows at hshows ⊢
  rcases hgh with rfl | ⟨cache, rfl, hc⟩
  · exact hshows
  · rw [Host.look_of_isFinal (g.isFinal_look cache), Host.held_look, Host.type_look] at hshows
    rwa [(hs.look_eq hc).2]

/-! ## Steps before and after -/

/-- A use runs only if its name is bound. -/
theorem bound?_of_runUse {n m : Node} {s t : ExecState} (hr : runUse n s = .ok (m, t)) :
    ∃ id, s.bound? n.content = some id := by
  cases hb : s.bound? n.content with
  | some id => exact ⟨id, rfl⟩
  | none =>
    unfold runUse at hr
    simp only [hb] at hr
    cases hr

/-- In a course that does not fail a use goes on to what follows. -/
theorem Course.goesOn_of_use {u v : ExecState} {o : Outcome} {n : Node} {after : List (Node × ExecState)}
    (h : Course Registry.standard.execution u ((n, u) :: after) o v) (hn : n.kind = .varUse) (hu : u.Calm)
    (ho : ∀ e, o ≠ .failed e) :
    ∃ m t, runStep Registry.standard.execution n u = .ok (m, t) ∧ runUse n u = .ok (m, t) ∧
      t.halted = false ∧ t.Onward v := by
  have hrun : runStep Registry.standard.execution n u = runUse n u := by rw [runStep, hn]
  cases h with
  | failed => exact absurd rfl (ho _)
  | halted hr ht =>
    have hfalse := (Looks.runUse (hrun ▸ hr)).steady.halted
    rw [ht, hu.1] at hfalse
    cases hfalse
  | step hr ht h => exact ⟨_, _, hr, hrun ▸ hr, ht, (ExecState.Onward.refl _).next.trans h.onward⟩

/-- In a course that starts with no bindings, a use that does not fail shows, at the end, what a look at
the host finds that the nearest assignment before it has bound. -/
theorem Course.shows {s u v : ExecState} {o : Outcome} {n : Node} {before after : List (Node × ExecState)}
    (h : Course Registry.standard.execution s (before ++ (n, u) :: after) o v) (hs : s.Linked)
    (hnone : ∀ name, s.bound? name = none) (hn : n.kind = .varUse) (hu : u.Calm) (ho : ∀ e, o ≠ .failed e) :
    ∃ front a w between m t g n' u', before = front ++ (a, w) :: between ∧ a.Assigns n.content ∧
      (∀ step ∈ between, ¬ step.1.Assigns n.content) ∧
      runStep Registry.standard.execution a w = .ok (m, t) ∧ t.hostOf? n.content = some g ∧
      runStep Registry.standard.execution n u = .ok (n', u') ∧ u'.halted = false ∧
      ∀ r : Ran, r.node = n' → r.warnings = u'.warnings → r.Shows g v.cache := by
  obtain ⟨hbefore, hafter⟩ := h.divide before
  obtain ⟨hlinked, hulinked⟩ := hbefore.linked hs
  obtain ⟨n', u', hr, huse, hgoes, hrest⟩ := hafter.goesOn_of_use hn hu ho
  obtain ⟨id, hid⟩ := bound?_of_runUse huse
  obtain ⟨-, hno⟩ | ⟨front, a, w, between, m, t, hsteps, ha, hbetween, hrt, hbound, honward⟩ :=
    hbefore.bound n.content
  · rw [hid, hnone] at hno
    cases hno
  · -- `g` is the host as it was bound, `k` as the use finds it.
    have htlinked : t.Linked := (hlinked (a, w) (by simp [hsteps])).runStep hrt
    rw [hid] at hbound
    obtain ⟨g, hg, -⟩ := htlinked.named hbound.symm
    obtain ⟨k, hk, hgk⟩ := honward.hosts hg
    have hlatest : t.hostOf? n.content = some g := by
      rw [ExecState.hostOf?, ← hbound]
      exact hg
    refine ⟨front, a, w, between, m, t, g, n', u', hsteps, ha, hbetween, hrt, hlatest, hr, hgoes, ?_⟩
    intro r hnode hwarnings
    obtain ⟨hcache, hshows⟩ := shows_of_runUse hid hk hu.2 huse
    have hlooked : (k.look u.cache).2.cache.Sub v.cache := hcache ▸ hrest.cache
    have hkept : u.cache.Sub v.cache := fun _ _ h => hlooked (k.sub_look u.cache h)
    have hlater := (hshows r hnode hwarnings).later (hulinked.sound.of_host? hk) hlooked
    exact hlater.earlier (hgk.mono hkept) (htlinked.sound.of_host? hg)

/-! ## In the document -/

/-- The steps of a course that completes go on. -/
theorem Course.goesOn {rules : Table ExecRule} {s u : ExecState} {steps : List (Node × ExecState)}
    (h : Course rules s steps .completed u) : ∀ step ∈ steps, goesOn rules step = true := by
  generalize ho : Outcome.completed = o at h
  induction h with
  | completed => exact fun _ h => absurd h List.not_mem_nil
  | failed => cases ho
  | halted => cases ho
  | step hr ht _ ih => exact List.forall_mem_cons.2 ⟨by simp [Evomark.goesOn, hr, ht], ih ho⟩

end Evomark
