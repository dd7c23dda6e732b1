import Evomark.Proofs.Exec.Kept
import Evomark.Proofs.Exec.Memo
/-!
# States that can be reached

A state starts with the tables of a context. From there hosts are bound and looked at; everything else in
a state may be changed at will, but the hosts and what is bound to a name are its own (`Reachable`). So of every
host the state can tell whether it has a value (`Reachable.tells`), and no name is bound to a host that is not
there (`Reachable.exists_host`). A rule that is built in binds nothing; all it does to the hosts is to look at
them (`ExecRule.touches_run`).

Nothing leads out of these states: not a rule, whether it is built in or added (`Reachable.run`), not a step
(`Reachable.runStep`), and not a pass (`Reachable.runNodes`).
-/

namespace Evomark

/-- Hosts as they come about. Whether a host has a value is said by no one but the one who sets its
content. -/
inductive Host.Made : Host → Prop
  | new (name : String) : Made { name }
  | setContent {h : Host} (hm : Made h) (value : Option Json) : Made (h.setContent value)
  | edit {g h : Host} (hm : Made g) (hdefined : h.defined = g.defined) (hcontent : h.content = g.content) :
    Made h

/-- States as they come about. -/
inductive ExecState.Reachable : ExecState → Prop
  | start (ctx : Context) : Reachable (.ofContext ctx)
  | bind {s : ExecState} {h : Host} (hs : Reachable s) (hm : h.Made) : Reachable (s.bind h)
  | look {s : ExecState} (hs : Reachable s) (place : Nat) : Reachable (s.look place).2
  | edit {s t : ExecState} (hs : Reachable s) (hhosts : t.hosts = s.hosts) (hbindings : t.bindings = s.bindings) :
    Reachable t

/-! ## Between two bindings -/

/-- From `s` to `t` no host is bound: hosts may be looked at, and what is neither a host nor a binding may be
changed at will. -/
inductive ExecState.Touches (s : ExecState) : ExecState → Prop
  | refl : Touches s s
  | look {t : ExecState} (h : Touches s t) (place : Nat) : Touches s (t.look place).2
  | edit {t u : ExecState} (h : Touches s t) (hhosts : u.hosts = t.hosts) (hbindings : u.bindings = t.bindings)
    (hlast : u.lastAssigned = t.lastAssigned) : Touches s u

namespace ExecState.Touches

variable {s t : ExecState}

theorem acts (h : Touches s t) {u : ExecState} (ha : Acts t u) : Touches s u := by
  induction ha with
  | refl => exact h
  | look place _ ih => exact ih.look place
  | warn | save | eval => rename_i ih; exact ih.edit rfl rfl rfl

theorem looks (h : Touches s t) {u : ExecState} (hl : Looks t u) : Touches s u := h.acts (Acts.refl.looks hl)

end ExecState.Touches

/-- What a rule that is built in does to the state. -/
theorem ExecRule.touches_run {rule : ExecRule} (hrule : rule.IsStandard) {c : Node} {host : Option Host}
    {s : ExecState} {done : Executed} (hr : rule.run c host s = .ok done) : s.Touches done.state := by
  obtain ⟨t, hacts, he⟩ := acts_run hrule hr
  have htouches : s.Touches t := ExecState.Touches.refl.acts hacts
  obtain rfl | ⟨-, message, he⟩ := he
  · exact htouches
  · exact he ▸ htouches.edit rfl rfl rfl

/-! ## Hosts -/

namespace Host.Made

variable {h : Host}

theorem tells (hm : h.Made) : h.Tells := by
  induction hm with
  | new name => simp [Host.Tells]
  | setContent _ value => exact Host.tells_setContent _ value
  | edit _ hdefined hcontent ih => rwa [Host.Tells, hdefined, hcontent]

theorem frozen {g : Host} (hm : g.Made) (value : Option Json) (hdefined : h.defined = value.isSome)
    (hcontent : h.content = .frozen value) : h.Made :=
  (hm.setContent value).edit hdefined hcontent

theorem look (hm : h.Made) (cache : Table Json) : (h.look cache).1.Made := by
  obtain ⟨-, he⟩ | ⟨d, -, -, he⟩ := h.look_cases cache <;> rw [he]
  · exact hm
  · exact hm.setContent _

theorem provide (hm : h.Made) (provision : Provision) (input : Json) (hash : String) :
    (h.provide provision input hash).Made := by
  cases provision with
  | untouched => exact hm
  | nothing => exact hm.setContent _
  | given value => exact hm.setContent _
  | deferred evaluator cached => exact hm.edit rfl rfl

end Host.Made

namespace ExecState.Reachable

variable {s t : ExecState}

/-! ## What holds of these states -/

/-- A host tells whether it is frozen with a value. -/
theorem tells (hs : s.Reachable) : ∀ h ∈ s.hosts, h.Tells := by
  induction hs with
  | start => exact fun h hh => absurd hh List.not_mem_nil
  | bind _ hm ih =>
    intro h hh
    rcases List.mem_append.1 hh with hh | hh
    · exact ih h hh
    · rw [List.mem_singleton.1 hh]
      exact hm.tells
  | look _ place ih => exact tells_look ih place
  | edit _ hhosts _ ih => rwa [hhosts]

theorem bindings_look (s : ExecState) (place : Nat) : (s.look place).2.bindings = s.bindings := by
  unfold ExecState.look
  split <;> rfl

/-- A name that is bound is bound to a host. -/
theorem exists_host (hs : s.Reachable) {name : String} {place : Nat} (hb : s.bound? name = some place) :
    ∃ h, s.host? place = some h := by
  induction hs generalizing place with
  | start => cases hb
  | @bind s h _ _ ih =>
    have hb : (s.bindings.insert h.name s.hosts.length).get? name = some place := hb
    rw [Table.get?_insert] at hb
    split at hb
    · obtain rfl := Option.some.inj hb
      exact ⟨h, List.getElem?_concat_length⟩
    · obtain ⟨g, hg⟩ := ih hb
      exact ⟨g, (List.getElem?_append_left (List.getElem?_eq_some_iff.1 hg).1).trans hg⟩
  | @look s _ other ih =>
    rw [bound?, bindings_look] at hb
    obtain ⟨g, hg⟩ := ih hb
    rw [host?_look, hg]
    split
    · exact ⟨_, rfl⟩
    · exact ⟨_, rfl⟩
  | edit _ hhosts hbindings ih =>
    rw [bound?, hbindings] at hb
    rw [host?, hhosts]
    exact ih hb

/-! ## What does not lead out of them -/

theorem touches (hs : s.Reachable) (ht : s.Touches t) : t.Reachable := by
  induction ht with
  | refl => exact hs
  | look _ place ih => exact ih.look place
  | edit _ hhosts hbindings _ ih => exact ih.edit hhosts hbindings

theorem acts (hs : s.Reachable) (ha : Acts s t) : t.Reachable := hs.touches (ExecState.Touches.refl.acts ha)

theorem looks (hs : s.Reachable) (hl : Looks s t) : t.Reachable := hs.acts (Acts.refl.looks hl)

/-- The rules that are built in. -/
theorem kept : Kept (fun _ => True) ExecState.Reachable Host.Made Host.Made where
  new _ := .new _
  same hm := hm
  look hs place := hs.look place
  undefined hs _ := hs.edit rfl rfl
  waiting hs _ _ := hs.edit rfl rfl
  malformed hs _ := hs.edit rfl rfl
  refused hs _ _ _ := hs.edit rfl rfl
  saveBound hs place := hs.acts (Acts.refl.saveBound place)
  saveHost {s _} hs hm := ⟨hs.acts (Acts.refl.saveHost _), hm.look s.cache⟩
  eval hs _ _ := hs.edit rfl rfl
  text hm _ _ := hm.frozen _ rfl rfl
  bound _ hm _ := hm.frozen _ rfl rfl
  saved _ hm _ _ := hm.frozen _ rfl rfl
  json hm _ _ := hm.frozen _ rfl rfl
  upper hm _ _ _ := hm.edit rfl rfl
  bind hs hm := hs.bind hm
  next hs := hs.edit rfl rfl
  last hs := hs.edit rfl rfl

/-- Any rule. -/
theorem run {rule : ExecRule} (hs : s.Reachable) {c : Node} {host : Option Host} (hhost : ∀ g ∈ host, g.Made)
    {done : Executed} (hr : rule.run c host s = .ok done) :
    (∀ g ∈ done.host, g.Made) ∧ done.state.Reachable := by
  cases rule with
  | assign | init | save | upper | json | require =>
    exact (kept.run (fun _ _ => trivial) (by trivial) hhost hs hr).symm
  | warn message | fatal message | halt =>
    obtain rfl := Except.ok.inj hr
    exact ⟨hhost, hs.edit rfl rfl⟩
  | fail cause => cases hr
  | provide caller provision =>
    obtain rfl := Except.ok.inj hr
    refine ⟨fun g hg => ?_, hs⟩
    obtain ⟨g', hg', rfl⟩ := Option.map_eq_some_iff.1 hg
    exact (hhost g' hg').provide provision _ _

/-- A step, whatever the rules are. -/
theorem runStep {rules : Table ExecRule} {n m : Node} (hs : s.Reachable)
    (hr : Evomark.runStep rules n s = .ok (m, t)) : t.Reachable := by
  obtain ⟨-, hr⟩ | ⟨rule, done, -, -, hdone, -, rfl⟩ | ⟨command, rest, rule, done, -, -, -, -, hdone, -, rfl⟩ :=
    runStep_inv hr
  · exact hs.looks (Looks.runUse hr)
  · exact (hs.run (by simp) hdone).2
  · obtain ⟨hmade, hstate⟩ := hs.run (fun g hg => Option.some.inj hg ▸ .new n.content) hdone
    unfold Executed.bound
    split
    · rename_i g hg
      exact hstate.bind (hmade g hg)
    · exact hstate

/-- All steps of a pass start in such a state, and the pass ends in one. -/
theorem runNodes {rules : Table ExecRule} (ns : List Node) (hs : s.Reachable) :
    (∀ x ∈ stepsOf rules ns s, x.2.Reachable) ∧ (Evomark.runNodes rules ns s).state.Reachable :=
  runNodes_invariant (fun hs hr => hs.runStep hr) (fun hs => hs.edit rfl rfl) (fun hs => hs.edit rfl rfl) ns s hs

end ExecState.Reachable

end Evomark
