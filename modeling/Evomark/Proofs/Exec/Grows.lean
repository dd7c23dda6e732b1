import Evomark.Proofs.Exec.Items
import Evomark.Proofs.Exec.Looks
/-!
# What a pass adds to its tables

A pass without `save` only adds to the tables that outlive it: what is in the cache stays there, and a
saved variable stays as it is from the moment that it is saved or its name is bound. `Grows s t` says so
of two states of a pass, `grows_runStep` of one step, and `grows_runNodes` of all of them. Saved values
that do not fit their types are replaced by `init`, so this supposes that they fit.
-/

namespace Evomark

/-- The saved variables hold values of their types. -/
def Context.Fit (ctx : Context) : Prop :=
  ∀ name saved, ctx.saved.get? name = some saved → SavedVar.Fits saved.type saved.value = true

/-- What `s` has in its tables is there in `t`, and no saved variable is new of a name that was bound. -/
structure Grows (s t : ExecState) : Prop where
  cache : ∀ {key value}, s.cache.get? key = some value → t.cache.get? key = some value
  bound : ∀ {name}, (s.bound? name).isSome = true → (t.bound? name).isSome = true
  saved : ∀ {name}, (s.saved.get? name).isSome = true ∨ (s.bound? name).isSome = true →
    t.saved.get? name = s.saved.get? name
  fit : s.context.Fit → t.context.Fit

namespace Grows

variable {s t : ExecState}

theorem refl (s : ExecState) : Grows s s := ⟨id, id, fun _ => rfl, id⟩

theorem trans {u : ExecState} (h : Grows s t) (h' : Grows t u) : Grows s u := by
  refine ⟨fun hk => h'.cache (h.cache hk), fun hb => h'.bound (h.bound hb), fun hn => ?_,
    fun hf => h'.fit (h.fit hf)⟩
  have hsame := h.saved hn
  rw [h'.saved (hn.imp (fun hs => by rwa [hsame]) h.bound), hsame]

/-- Only the tables matter. -/
theorem of_eq {u : ExecState} (h : Grows s t) (hc : u.cache = t.cache) (hb : u.bindings = t.bindings)
    (hs : u.saved = t.saved) : Grows s u := by
  refine h.trans ⟨fun hk => by rwa [hc], fun hn => ?_, fun _ => by rw [hs], fun hf => ?_⟩
  · rwa [ExecState.bound?, hb]
  · unfold Context.Fit ExecState.context at hf ⊢
    rwa [hs]

theorem warn (message : String) (h : Grows s t) : Grows s (t.warn message) := h.of_eq rfl rfl rfl

theorem fatal (message : String) (h : Grows s t) : Grows s (t.fatal message) := h.of_eq rfl rfl rfl

theorem next (h : Grows s t) : Grows s t.next := h.of_eq rfl rfl rfl

theorem last (h : Grows s t) : Grows s t.last := h.of_eq rfl rfl rfl

theorem noteLookup {found : Lookup} (h : Grows s t)
    (hf : ∀ {key value}, t.cache.get? key = some value → found.cache.get? key = some value) :
    Grows s (t.noteLookup found) :=
  h.trans ⟨hf, id, fun _ => rfl, id⟩

theorem look (id : Nat) (h : Grows s t) : Grows s (t.look id).2 := by
  unfold ExecState.look
  split
  · exact h
  · refine (h.noteLookup fun hk => ?_).of_eq rfl rfl rfl
    unfold Host.look
    split
    · exact hk
    · split
      · exact hk
      · exact Deferred.get?_eval hk

theorem bind (g : Host) (h : Grows s t) : Grows s (t.bind g) := by
  refine h.trans ⟨id, fun hn => ?_, fun _ => rfl, id⟩
  show ((t.bindings.insert g.name t.hosts.length).get? _).isSome = true
  rw [Table.get?_insert]
  split
  · rfl
  · exact hn

/-- A variable may be saved if none is saved and nothing is bound under its name. -/
theorem save (h : Grows s t) {name : String} {saved : SavedVar}
    (hfits : SavedVar.Fits saved.type saved.value = true) (hs : t.saved.get? name = none)
    (hb : t.bound? name = none) : Grows s { t with saved := t.saved.insert name saved } := by
  refine h.trans ⟨id, id, fun {name'} hn => ?_, fun hf name' saved' hsaved => ?_⟩
  · show (t.saved.insert name saved).get? name' = _
    rw [Table.get?_insert, if_neg]
    rintro rfl
    simp [hs, hb] at hn
  · have hsaved : (t.saved.insert name saved).get? name' = some saved' := hsaved
    rw [Table.get?_insert] at hsaved
    split at hsaved
    · rwa [← Option.some.inj hsaved]
    · exact hf name' saved' hsaved

end Grows

theorem Looks.grows {s t : ExecState} (h : Looks s t) : Grows s t := by
  induction h with
  | refl => exact .refl _
  | look id _ ih => exact ih.look id
  | warn message _ ih => exact ih.warn message

theorem Looks.saved {s t : ExecState} (h : Looks s t) : t.saved = s.saved := by
  induction h with
  | refl => rfl
  | warn message _ ih => exact ih
  | @look t id _ ih =>
    rw [← ih]
    unfold ExecState.look
    split <;> rfl

/-! ## Rules and steps -/

namespace ExecRule

section

variable {c : Node} {g : Host} {s : ExecState}

/-- `init` without a text saves nothing. -/
theorem initText_of_none (h : (synthesize s (bodyItems c)).1 = none) : initText c g s = storeText c g s := by
  unfold initText storeText
  simp only [h]
  rfl

/-- `init` with a text saves it. -/
theorem initText_of_some {text : String} (h : (synthesize s (bodyItems c)).1 = some text) :
    initText c g s = ((storeText c g s).1,
      { (storeText c g s).2 with saved := (storeText c g s).2.saved.insert g.name ⟨.str, .string text⟩ }) := by
  unfold initText storeText
  simp only [h, Option.map_some, Host.setContent, Option.isSome_some, if_true, ExecState.saveHost,
    ExecState.lookHost, Host.look, ExecState.store, SavedVar.encode, SavedVar.Fits, ExecState.noteLookup,
    List.append_nil]

theorem grows_initText (hs : s.saved.get? g.name = none) (hb : s.bound? g.name = none) :
    Grows s (initText c g s).2 := by
  have hlooks := (Looks.refl s).storeText c g
  cases h : (synthesize s (bodyItems c)).1 with
  | none =>
    rw [initText_of_none h]
    exact hlooks.grows
  | some text =>
    rw [initText_of_some h]
    refine hlooks.grows.save rfl ?_ ?_
    · rwa [hlooks.saved]
    · rwa [ExecState.bound?, hlooks.steady.bindings]

theorem runInit_of_unsaved (hb : s.bound? g.name = none) (hs : s.saved.get? g.name = none) :
    runInit c g s = initText c g s := by
  unfold runInit
  simp only [hb, hs]

theorem runInit_of_saved {saved : SavedVar} (hb : s.bound? g.name = none)
    (hs : s.saved.get? g.name = some saved) (hf : SavedVar.Fits saved.type saved.value = true) :
    runInit c g s = (({ g with type := saved.type }).setContent (some saved.value), s) := by
  unfold runInit
  simp only [hb, hs, SavedVar.decode, hf, if_true]

theorem grows_runInit (hf : s.context.Fit) : Grows s (runInit c g s).2 := by
  cases hb : s.bound? g.name with
  | some id =>
    unfold runInit
    simp only [hb]
    exact (Grows.refl s).look id
  | none =>
    cases hs : s.saved.get? g.name with
    | none =>
      rw [runInit_of_unsaved hb hs]
      exact grows_initText hs hb
    | some saved =>
      rw [runInit_of_saved hb hs (hf g.name saved hs)]
      exact .refl s

theorem grows_attachUpper (c : Node) (input : Json) (s : ExecState) : Grows s (attachUpper c input s).2 := by
  unfold attachUpper
  simp only
  split <;> exact (Grows.refl s).noteLookup Deferred.get?_eval

/-- A standard rule other than `save` only adds to the tables. -/
theorem grows_run {rule : ExecRule} (hrule : rule.IsStandard) (hne : rule ≠ .save) (hf : s.context.Fit)
    {host : Option Host} {done : Executed} (hr : rule.run c host s = .ok done) : Grows s done.state := by
  have hs := ((Looks.refl s).synthesize (bodyItems c)).grows
  cases runs_of_run hrule hr with
  | bare => exact .refl s
  | assign g => exact ((Looks.refl s).storeText c g).grows
  | init g => exact grows_runInit hf
  | save => exact absurd rfl hne
  | require =>
    obtain hlooks | ⟨t, message, hlooks, hfatal⟩ := Looks.runRequire s (usedNames (bodyItems c))
    · exact hlooks.grows
    · exact hfatal ▸ hlooks.grows.fatal message
  | textless | json | upper => exact hs
  | malformed => exact hs.warn _
  | attach => exact hs.trans (grows_attachUpper _ _ _)

end

end ExecRule

/-- The command that a node runs is not `save`. -/
def Node.SavesNothing (n : Node) : Prop := ∀ command ∈ n.command?, command.content ≠ "save"

instance (n : Node) : Decidable n.SavesNothing :=
  inferInstanceAs (Decidable (∀ command ∈ n.command?, command.content ≠ "save"))

theorem Node.SavesNothing.rule {n command : Node} {rule : ExecRule} (h : n.SavesNothing)
    (hc : n.command? = some command)
    (hrule : Registry.standard.execution.get? command.content = some rule) : rule ≠ .save := by
  have hne := h command hc
  rcases standard_of_get? hrule with h | h | h | h | h | h <;> simp_all

/-- Outside an assignment nothing is bound. -/
theorem ExecRule.bound_of_run {rule : ExecRule} (hrule : rule.IsStandard) {c : Node} {s : ExecState}
    {done : Executed} (hr : rule.run c none s = .ok done) : done.bound = done.state := by
  have hmakes := makes_run hrule hr
  unfold Executed.bound
  cases hd : done.host with
  | none => rfl
  | some g =>
    rw [hd] at hmakes
    cases hmakes

theorem grows_bound (done : Executed) : Grows done.state done.bound := by
  unfold Executed.bound
  split
  · exact (Grows.refl _).bind _
  · exact .refl _

/-- A step that does not save only adds to the tables. -/
theorem grows_runStep {n m : Node} {s t : ExecState} (hn : n.SavesNothing) (hf : s.context.Fit)
    (hr : runStep Registry.standard.execution n s = .ok (m, t)) : Grows s t := by
  obtain ⟨-, hr⟩ | ⟨rule, done, hk, hrule, hdone, -, rfl⟩ |
    ⟨command, rest, rule, done, hk, hchildren, hcmd, hrule, hdone, -, rfl⟩ := runStep_inv hr
  · exact (Looks.runUse hr).grows
  · exact ExecRule.grows_run (isStandard_of_get? hrule) (hn.rule (command?_of_cmd hk) hrule) hf hdone
  · refine (ExecRule.grows_run (isStandard_of_get? hrule) ?_ hf hdone).trans (grows_bound done)
    exact hn.rule (command?_of_varAssign hk hchildren hcmd) hrule

/-- A pass that does not save only adds to the tables. -/
theorem grows_runNodes (ns : List Node) (s : ExecState) (hns : Throughout Node.SavesNothing ns)
    (hf : s.context.Fit) : Grows s (runNodes Registry.standard.execution ns s).state := by
  revert hns hf
  refine runNodes_induct Registry.standard.execution
    (motive := fun ns s w => Throughout Node.SavesNothing ns → s.context.Fit → Grows s w.state)
    ?nil ?marker ?failed ?halted ?executed ?inside ?ended ns s
  case nil => exact fun s _ _ => .refl s
  case marker => exact fun n rest s _ ih hns hf => ih hns.afterMarker hf
  case failed => exact fun n rest s e _ _ _ _ _ => .refl s
  case halted => exact fun n rest s m t _ _ hr _ hns hf => (grows_runStep hns.head hf hr).last
  case executed =>
    intro n rest s m t _ _ hr _ ih hns hf
    have hstep := (grows_runStep hns.head hf hr).next
    exact hstep.trans (ih hns.tail (hstep.fit hf))
  case inside =>
    intro label children rest s w hn _ _ ih ihrest hns hf
    have hinside := ih (hns.inside hn) hf
    exact hinside.trans (ihrest hns.tail (hinside.fit hf))
  case ended => exact fun label children rest s w hn _ _ ih hns hf => ih (hns.inside hn) hf

end Evomark
