import Evomark.Proofs.Exec.Looks
/-!
# Passes side by side

Two passes over the same nodes are compared by a relation between their states. `Mirrors good R` is what
has to be shown of such a relation: in related states a look finds the same, and looks and warnings keep
states related, as long as the first of them is `good`. All that rules read from a state is then the same
on both sides: `Mirrors.synthesize`, `Mirrors.runRequire`, `Mirrors.runUse`.
-/

namespace Evomark

/-- Both results are the same error, or values in a relation. -/
inductive Alike {ε α β : Type} (R : α → β → Prop) : Except ε α → Except ε β → Prop
  | error (e : ε) : Alike R (.error e) (.error e)
  | ok {a : α} {b : β} : R a b → Alike R (.ok a) (.ok b)

namespace Alike

variable {ε α β γ δ : Type} {R : α → β → Prop} {S : γ → δ → Prop}

theorem bind {x : Except ε α} {y : Except ε β} {f : α → Except ε γ} {g : β → Except ε δ} (h : Alike R x y)
    (hfg : ∀ a b, R a b → Alike S (f a) (g b)) : Alike S (x >>= f) (y >>= g) := by
  cases h with
  | error e => exact .error e
  | ok hab => exact hfg _ _ hab

theorem of_error {e : ε} {y : Except ε β} (h : Alike R (.error e) y) : y = .error e := by
  cases h
  rfl

theorem of_ok {a : α} {y : Except ε β} (h : Alike R (.ok a) y) : ∃ b, y = .ok b ∧ R a b := by
  cases h with
  | ok hab => exact ⟨_, rfl, hab⟩

end Alike

/-- What is the same of two results that come with states, and how the states are related. -/
def SameThen {α : Type} (R : ExecState → ExecState → Prop) (r q : α × ExecState) : Prop :=
  q.1 = r.1 ∧ R r.2 q.2

/-- Related states look the same and stay related, as long as the first of them is `good`. -/
structure Mirrors (good : ExecState → Prop) (R : ExecState → ExecState → Prop) : Prop where
  before : ∀ {s s'}, Looks s s' → good s' → good s
  beforeFatal : ∀ {s message}, good (s.fatal message) → good s
  bound? : ∀ {s t}, R s t → ∀ name, t.bound? name = s.bound? name
  type : ∀ {s t}, R s t → ∀ id, (t.host? id).map (·.type) = (s.host? id).map (·.type)
  look : ∀ {s t}, R s t → ∀ id, good (s.look id).2 →
    SameThen R (s.look id) (t.look id) ∧ (t.look id).2.isDefined id = (s.look id).2.isDefined id
  warn : ∀ {s t}, R s t → ∀ message, R (s.warn message) (t.warn message)
  fatal : ∀ {s t}, R s t → ∀ message, R (s.fatal message) (t.fatal message)

namespace Mirrors

variable {good : ExecState → Prop} {R : ExecState → ExecState → Prop} (m : Mirrors good R)

include m

theorem lookText {s t : ExecState} (h : R s t) (id : Nat) (hg : good (s.lookText id).2) :
    SameThen R (s.lookText id) (t.lookText id) := by
  obtain ⟨⟨hvalue, hstate⟩, -⟩ := m.look h id hg
  refine ⟨?_, hstate⟩
  have htype : ∀ value : Json, ((t.look id).2.host? id).map (fun g => Host.textOf g.type value) =
      ((s.look id).2.host? id).map (fun g => Host.textOf g.type value) := fun value => by
    have := congrArg (Option.map (Host.textOf · value)) (m.type hstate id)
    rwa [Option.map_map, Option.map_map] at this
  unfold ExecState.lookText
  simp only [hvalue, htype]

theorem resolveNames (names : List String) : ∀ {s t : ExecState}, R s t →
    good (resolveNames s names).2.2 →
    (Evomark.resolveNames t names).1 = (Evomark.resolveNames s names).1 ∧
      SameThen R (Evomark.resolveNames s names).2 (Evomark.resolveNames t names).2 := by
  induction names with
  | nil => exact fun h _ => ⟨rfl, rfl, h⟩
  | cons name rest ih =>
    intro s t h hg
    unfold Evomark.resolveNames at hg ⊢
    simp only [m.bound? h name]
    cases hb : s.bound? name with
    | none =>
      simp only [hb] at hg
      obtain ⟨hhosts, hmissing, hstate⟩ := ih h hg
      exact ⟨by rw [hhosts], by rw [hmissing], hstate⟩
    | some id =>
      simp only [hb] at hg ⊢
      obtain ⟨⟨-, hlooked⟩, hdefined⟩ := m.look h id (m.before ((Peeks.refl _).resolveNames rest).looks hg)
      obtain ⟨hhosts, hmissing, hstate⟩ := ih hlooked hg
      exact ⟨by rw [hhosts], by rw [hmissing, hdefined], hstate⟩

theorem assemble (items : List Node) : ∀ {s t : ExecState} (hosts : List Nat), R s t →
    good (assemble s hosts items).2 →
    SameThen R (Evomark.assemble s hosts items) (Evomark.assemble t hosts items) := by
  induction items with
  | nil => exact fun _ h _ => ⟨rfl, h⟩
  | cons n rest ih =>
    intro s t hosts h hg
    unfold Evomark.assemble at hg ⊢
    cases hk : n.kind <;> simp only [hk] at hg ⊢
    case varUse =>
      cases hosts with
      | nil => exact ih _ h hg
      | cons id hosts =>
        simp only at hg ⊢
        obtain ⟨htext, hlooked⟩ := m.lookText h id (m.before ((Peeks.refl _).assemble rest hosts).looks hg)
        obtain ⟨hmore, hstate⟩ := ih hosts hlooked hg
        exact ⟨by rw [htext, hmore], hstate⟩
    case literal | sep =>
      obtain ⟨hmore, hstate⟩ := ih hosts h hg
      exact ⟨by rw [hmore], hstate⟩
    all_goals exact ih _ h hg

theorem warnAll (names : List String) {s t : ExecState} (h : R s t) :
    R (names.foldl (fun s name => s.warn (ExecState.undefinedWarning name)) s)
      (names.foldl (fun s name => s.warn (ExecState.undefinedWarning name)) t) := by
  induction names generalizing s t with
  | nil => exact h
  | cons name rest ih => exact ih (m.warn h _)

/-- The text of a body is the same on both sides. -/
theorem synthesize (items : List Node) {s t : ExecState} (h : R s t)
    (hg : good (synthesize s items).2.2) :
    (Evomark.synthesize t items).1 = (Evomark.synthesize s items).1 ∧
      SameThen R (Evomark.synthesize s items).2 (Evomark.synthesize t items).2 := by
  have hresolved := m.resolveNames (usedNames items) h
  revert hg
  unfold Evomark.synthesize
  simp only
  intro hg
  by_cases hnone : (Evomark.resolveNames s (usedNames items)).2.1.isEmpty = true
  · simp only [hnone, if_true] at hg ⊢
    obtain ⟨hhosts, hmissing, hstate⟩ := hresolved (m.before ((Peeks.refl _).assemble items _).looks hg)
    obtain ⟨htext, hstate⟩ := m.assemble items _ hstate hg
    rw [hmissing, hhosts, if_pos hnone]
    exact ⟨by rw [htext], rfl, hstate⟩
  · simp only [hnone] at hg ⊢
    obtain ⟨hhosts, hmissing, hstate⟩ := hresolved (m.before ((Looks.refl _).warnAll _) hg)
    rw [hmissing, hhosts, if_neg hnone]
    exact ⟨rfl, rfl, m.warnAll _ hstate⟩

theorem synthesize_eq {items : List Node} {s t : ExecState} (h : R s t) {text : Option String}
    {dependencies : List (Option Nat)} {s' : ExecState}
    (hs : Evomark.synthesize s items = (text, dependencies, s')) (hg : good s') :
    ∃ t', Evomark.synthesize t items = (text, dependencies, t') ∧ R s' t' := by
  obtain ⟨htext, hdependencies, hstate⟩ := m.synthesize items h (by rw [hs]; exact hg)
  rw [hs] at htext hdependencies hstate
  exact ⟨(Evomark.synthesize t items).2.2, Prod.ext htext (Prod.ext hdependencies rfl), hstate⟩

theorem storeText (c : Node) (g : Host) {s t : ExecState} (h : R s t)
    (hg : good (ExecRule.storeText c g s).2) :
    SameThen R (ExecRule.storeText c g s) (ExecRule.storeText c g t) := by
  obtain ⟨htext, hdependencies, hstate⟩ := m.synthesize _ h hg
  refine ⟨?_, hstate⟩
  simp only [ExecRule.storeText, htext, hdependencies]

/-- `require` does the same on both sides. -/
theorem runRequire (names : List String) {s t : ExecState} (h : R s t)
    (hg : good (ExecRule.runRequire s names)) :
    R (ExecRule.runRequire s names) (ExecRule.runRequire t names) := by
  have hresolved := m.resolveNames names h
  unfold ExecRule.runRequire at hg ⊢
  simp only [missingNames_eq] at hg ⊢
  split at hg
  · rename_i hnone
    obtain ⟨-, hmissing, hstate⟩ := hresolved hg
    rw [hmissing, if_pos hnone, if_pos hnone]
    exact hstate
  · rename_i hsome
    obtain ⟨-, hmissing, hstate⟩ := hresolved (m.beforeFatal hg)
    rw [hmissing, if_neg hsome, if_neg hsome]
    exact m.fatal hstate _

/-- A use shows the same value on both sides. -/
theorem runUse (n : Node) {s t : ExecState} (h : R s t)
    (hg : ∀ n' s', Evomark.runUse n s = .ok (n', s') → good s') :
    Alike (SameThen R) (Evomark.runUse n s) (Evomark.runUse n t) := by
  unfold Evomark.runUse at hg ⊢
  simp only [m.bound? h n.content]
  cases hb : s.bound? n.content with
  | none => exact .error _
  | some id =>
    simp only [hb] at hg ⊢
    have hlookedText : good ((s.look id).2.lookText id).2 := by
      split at hg
      · exact hg _ _ rfl
      · exact m.before ((Looks.refl _).warn _) (hg _ _ rfl)
    obtain ⟨⟨hvalue, hlooked⟩, -⟩ := m.look h id (m.before ((Looks.refl _).look id) hlookedText)
    obtain ⟨htext, hstate⟩ := m.lookText hlooked id hlookedText
    rw [hvalue, htext]
    split
    · exact .ok ⟨rfl, hstate⟩
    · exact .ok ⟨rfl, m.warn hstate _⟩

end Mirrors

end Evomark
