import Evomark.Proofs.Exec.Course
import Evomark.Proofs.Exec.Reference
/-!
# What is bound, and what it was made from

Hosts are kept in the order in which they were bound. A state is `Consistent` if every name is bound to the last host
of that name, and every host was made from hosts that stand before it. So no host goes back to itself
(`Consistent.acyclic`), not even one that was made from the value its own name had before.

Between two bindings hosts are only looked at, which changes neither their names nor what they were made from
(`Touches.origin_host?`). When a host is bound, what it was made from is still bound to names (`names_run`): a rule
takes hosts from nowhere else, and binds none by itself. These are the moves of a pass (`Leads`), and a consistent
state leads to consistent states only (`Consistent.leads`). On the way a host that is resolved stays as it is
(`Leads.keeps`). Every step of a pass is such a move (`leads_runStep`).
-/

namespace Evomark

namespace Host

/-- Under which name a host is bound, and what it was made from. -/
def origin (h : Host) : String × List (Option Nat) := (h.name, h.dependencies)

theorem origin_look (h : Host) (cache : Table Json) : (h.look cache).1.origin = h.origin := by
  obtain ⟨-, he⟩ | ⟨d, -, -, he⟩ := h.look_cases cache <;> rw [he]
  rfl

/-- Where one of two has been found and their origins are the same, the other has been found too. -/
theorem exists_of_origin {found other : Option Host} (h : found.map origin = other.map origin) {g : Host}
    (hg : found = some g) : ∃ g', other = some g' ∧ g'.name = g.name ∧ g'.dependencies = g.dependencies := by
  rw [hg, Option.map_some, eq_comm, Option.map_eq_some_iff] at h
  obtain ⟨g', hother, he⟩ := h
  exact ⟨g', hother, Prod.mk.inj he⟩

theorem isFinal_of_isResolved {h : Host} (hr : h.isResolved = true) : h.IsFinal := by
  intro hc
  simp [isResolved, hc] at hr

end Host

namespace ExecState

/-- What something was made from is bound to names. -/
def Names (s : ExecState) (dependencies : List (Option Nat)) : Prop :=
  ∀ place, some place ∈ dependencies → ∃ name, s.bound? name = some place

/-- From `s` to `t` hosts may be looked at, and hosts bound that were made from what is bound to names then. -/
inductive Leads (s : ExecState) : ExecState → Prop
  | refl : Leads s s
  | touch {t u : ExecState} (h : Leads s t) (ht : t.Touches u) : Leads s u
  | bind {t : ExecState} (h : Leads s t) {g : Host} (hg : t.Names g.dependencies) : Leads s (t.bind g)

/-- The host at a place was made from the host at another. -/
def DependsOn (s : ExecState) (place other : Nat) : Prop :=
  ∃ g, s.host? place = some g ∧ some other ∈ g.dependencies

/-- Names are bound to hosts, and hosts made from others, in the order in which the hosts were bound. -/
structure Consistent (s : ExecState) : Prop where
  /-- What is bound to a name is the last host of that name. -/
  latest : ∀ name place, s.bound? name = some place → (∃ g, s.host? place = some g ∧ g.name = name) ∧
    ∀ other g, s.host? other = some g → g.name = name → other ≤ place
  /-- The name of a host is bound. -/
  mapped : ∀ g ∈ s.hosts, ∃ place, s.bound? g.name = some place
  /-- What was assigned last is the last host. -/
  last : ∀ place, s.lastAssigned = some place ↔ place + 1 = s.hosts.length
  /-- A host was made from hosts before it. -/
  earlier : ∀ place other, s.DependsOn place other → other < place

/-- No host goes back to itself. -/
def Acyclic (s : ExecState) : Prop := ∀ place, ¬ Relation.TransGen s.DependsOn place place

/-- A host that is resolved in `s` is the same in `t`. -/
def Keeps (s t : ExecState) : Prop :=
  ∀ place g, s.host? place = some g → g.isResolved = true → t.host? place = some g

theorem Consistent.acyclic {s : ExecState} (hs : s.Consistent) : s.Acyclic := by
  have hless {place other : Nat} (h : Relation.TransGen s.DependsOn place other) : other < place := by
    induction h with
    | single h => exact hs.earlier _ _ h
    | tail _ h ih => exact (hs.earlier _ _ h).trans ih
  exact fun place h => Nat.lt_irrefl place (hless h)

theorem host?_bind_of_lt (s : ExecState) (g : Host) {place : Nat} (hp : place < s.hosts.length) :
    (s.bind g).host? place = s.host? place :=
  List.getElem?_append_left hp

/-- A host is an earlier one or the one that has just been bound. -/
theorem host?_bind_cases {s : ExecState} {g h : Host} {place : Nat} (hh : (s.bind g).host? place = some h) :
    s.host? place = some h ∨ place = s.hosts.length ∧ h = g := by
  have hle : place < s.hosts.length + 1 := by
    have := (List.getElem?_eq_some_iff.1 hh).1
    simpa [bind] using this
  rcases Nat.lt_succ_iff_lt_or_eq.1 hle with hlt | rfl
  · exact .inl (s.host?_bind_of_lt g hlt ▸ hh)
  · exact .inr ⟨rfl, Option.some.inj (hh.symm.trans (s.host?_bind g))⟩

variable {s t u : ExecState}

/-! ## Between two bindings -/

namespace Touches

theorem frame (h : s.Touches t) :
    t.bindings = s.bindings ∧ t.lastAssigned = s.lastAssigned ∧ t.hosts.length = s.hosts.length := by
  induction h with
  | refl => exact ⟨rfl, rfl, rfl⟩
  | @look t _ place ih =>
    have hframe : (t.look place).2.bindings = t.bindings ∧ (t.look place).2.lastAssigned = t.lastAssigned ∧
        (t.look place).2.hosts.length = t.hosts.length := by
      unfold ExecState.look
      split
      · exact ⟨rfl, rfl, rfl⟩
      · exact ⟨rfl, rfl, List.length_set⟩
    exact ⟨hframe.1.trans ih.1, hframe.2.1.trans ih.2.1, hframe.2.2.trans ih.2.2⟩
  | edit _ hhosts hbindings hlast ih =>
    exact ⟨hbindings.trans ih.1, hlast.trans ih.2.1, (congrArg List.length hhosts).trans ih.2.2⟩

theorem bound?_eq (h : s.Touches t) (name : String) : t.bound? name = s.bound? name := by
  rw [bound?, h.frame.1, bound?]

/-- Hosts keep their names and what they were made from. -/
theorem origin_host? (h : s.Touches t) (place : Nat) :
    (t.host? place).map Host.origin = (s.host? place).map Host.origin := by
  induction h with
  | refl => rfl
  | look _ other ih =>
    rw [← ih, host?_look]
    split
    · rw [Option.map_map]
      exact congrArg (Option.map · _) (funext fun g => g.origin_look _)
    · rfl
  | edit _ hhosts _ _ ih => rwa [host?, hhosts]

/-- What stands at a place in `t` stood there in `s`. -/
theorem host_before (h : s.Touches t) {place : Nat} {g : Host} (hg : t.host? place = some g) :
    ∃ g', s.host? place = some g' ∧ g'.name = g.name ∧ g'.dependencies = g.dependencies :=
  Host.exists_of_origin (h.origin_host? place) hg

/-- What stood at a place in `s` stands there in `t`. -/
theorem host_after (h : s.Touches t) {place : Nat} {g : Host} (hg : s.host? place = some g) :
    ∃ g', t.host? place = some g' ∧ g'.name = g.name ∧ g'.dependencies = g.dependencies :=
  Host.exists_of_origin (h.origin_host? place).symm hg

theorem keeps (h : s.Touches t) : s.Keeps t := by
  induction h with
  | refl => exact fun _ _ hg _ => hg
  | look _ other ih =>
    intro place g hg hr
    rw [host?_look]
    split
    · rw [ih place g hg hr, Option.map_some, Host.look_of_isFinal (Host.isFinal_of_isResolved hr)]
    · exact ih place g hg hr
  | edit _ hhosts _ _ ih =>
    intro place g hg hr
    rw [host?, hhosts]
    exact ih place g hg hr

end Touches

/-! ## Bindings -/

namespace Consistent

theorem ofContext (ctx : Context) : (ofContext ctx).Consistent where
  latest _ _ hb := nomatch hb
  mapped _ hg := absurd hg List.not_mem_nil
  last place := iff_of_false (fun h => nomatch h) (Nat.succ_ne_zero place)
  earlier _ _ h := by
    obtain ⟨g, hg, -⟩ := h
    exact nomatch hg

theorem touch (hs : s.Consistent) (h : s.Touches t) : t.Consistent where
  latest name place hb := by
    obtain ⟨⟨g, hg, hname⟩, hlatest⟩ := hs.latest name place (h.bound?_eq name ▸ hb)
    refine ⟨?_, fun other g' hg' hname' => ?_⟩
    · obtain ⟨g', hg', hsame, -⟩ := h.host_after hg
      exact ⟨g', hg', hsame.trans hname⟩
    · obtain ⟨g, hg, hsame, -⟩ := h.host_before hg'
      exact hlatest other g hg (hsame.trans hname')
  mapped g hg := by
    obtain ⟨place, hplace⟩ := List.mem_iff_getElem?.1 hg
    obtain ⟨g', hg', hsame, -⟩ := h.host_before hplace
    rw [h.bound?_eq, ← hsame]
    exact hs.mapped g' (List.mem_of_getElem? hg')
  last place := by
    rw [h.frame.2.1, h.frame.2.2]
    exact hs.last place
  earlier place other hd := by
    obtain ⟨g, hg, hmem⟩ := hd
    obtain ⟨g', hg', -, hsame⟩ := h.host_before hg
    exact hs.earlier place other ⟨g', hg', hsame ▸ hmem⟩

/-- A host that was made from what is bound to names may be bound, under one of these names as well. -/
theorem bind (hs : s.Consistent) {g : Host} (hg : s.Names g.dependencies) : (s.bind g).Consistent where
  latest name place hb := by
    rw [bound?_bind] at hb
    split at hb
    · rename_i hname
      obtain rfl := Option.some.inj hb
      refine ⟨⟨g, s.host?_bind g, hname⟩, fun other h hh _ => ?_⟩
      rcases host?_bind_cases hh with hh | ⟨rfl, -⟩
      · exact Nat.le_of_lt (List.getElem?_eq_some_iff.1 hh).1
      · exact Nat.le_refl _
    · rename_i hname
      obtain ⟨⟨h, hh, hnamed⟩, hlatest⟩ := hs.latest name place hb
      refine ⟨⟨h, ?_, hnamed⟩, fun other h' hh' hname' => ?_⟩
      · rwa [s.host?_bind_of_lt g (List.getElem?_eq_some_iff.1 hh).1]
      · rcases host?_bind_cases hh' with hh' | ⟨-, rfl⟩
        · exact hlatest other h' hh' hname'
        · exact absurd hname' hname
  mapped h hh := by
    rw [bound?_bind]
    split
    · exact ⟨_, rfl⟩
    · rename_i hname
      rcases List.mem_append.1 hh with hh | hh
      · exact hs.mapped h hh
      · rw [List.mem_singleton.1 hh] at hname
        exact absurd rfl hname
  last place := by
    show some s.hosts.length = some place ↔ place + 1 = (s.hosts ++ [g]).length
    rw [Option.some.injEq, List.length_append, List.length_singleton]
    omega
  earlier place other hd := by
    obtain ⟨h, hh, hmem⟩ := hd
    rcases host?_bind_cases hh with hh | ⟨rfl, rfl⟩
    · exact hs.earlier place other ⟨h, hh, hmem⟩
    · obtain ⟨name, hb⟩ := hg other hmem
      obtain ⟨⟨h', hh', -⟩, -⟩ := hs.latest name other hb
      exact (List.getElem?_eq_some_iff.1 hh').1

theorem leads (hs : s.Consistent) (h : s.Leads t) : t.Consistent := by
  induction h with
  | refl => exact hs
  | touch _ ht ih => exact ih.touch ht
  | bind _ hg ih => exact ih.bind hg

end Consistent

namespace Leads

theorem trans (h : s.Leads t) (h' : t.Leads u) : s.Leads u := by
  induction h' with
  | refl => exact h
  | touch _ ht ih => exact ih.touch ht
  | bind _ hg ih => exact ih.bind hg

theorem keeps (h : s.Leads t) : s.Keeps t := by
  induction h with
  | refl => exact fun _ _ hg _ => hg
  | touch _ ht ih => exact fun place g hg hr => ht.keeps place g (ih place g hg hr) hr
  | @bind t _ g' _ ih =>
    intro place g hg hr
    have hold := ih place g hg hr
    rwa [t.host?_bind_of_lt g' (List.getElem?_eq_some_iff.1 hold).1]

end Leads

end ExecState

/-! ## Rules -/

variable {s t : ExecState}

/-- A text is made from hosts that are bound. -/
theorem names_synthesize (hs : s.Reachable) (ns : List Node) : s.Names (synthesize s ns).2.1 := by
  intro place hmem
  rw [synthesize_lookAll hs, List.mem_map] at hmem
  obtain ⟨name, -, hb⟩ := hmem
  exact ⟨name, hb⟩

theorem names_runInit (hs : s.Reachable) (c : Node) {g : Host} (hg : g.dependencies = []) :
    s.Names (ExecRule.runInit c g s).1.dependencies := by
  have htext {t : ExecState} (ht : t.Reachable) : t.Names (ExecRule.initText c g t).1.dependencies := by
    have hnames := names_synthesize ht (ExecRule.bodyItems c)
    cases htext : (synthesize t (ExecRule.bodyItems c)).1 with
    | none => rwa [ExecRule.initText_of_none htext]
    | some text => rwa [ExecRule.initText_of_some htext]
  unfold ExecRule.runInit
  split
  · rename_i place hb
    intro other hmem
    obtain rfl := Option.some.inj (List.mem_singleton.1 hmem)
    exact ⟨g.name, hb⟩
  · split
    · exact htext hs
    · split
      · intro other hmem
        have hmem : some other ∈ g.dependencies := hmem
        rw [hg] at hmem
        exact absurd hmem List.not_mem_nil
      · exact htext (hs.edit rfl rfl)

/-- Whatever a rule makes of the host of an assignment, it is made from hosts that are bound. -/
theorem ExecRule.names_run {rule : ExecRule} (hrule : rule.IsStandard) (hs : s.Reachable) {c : Node}
    {host : Option Host} (hhost : ∀ g ∈ host, g.dependencies = []) {done : Executed}
    (hr : rule.run c host s = .ok done) : ∀ g ∈ done.host, s.Names g.dependencies := by
  have hsame : ∀ g ∈ host, s.Names g.dependencies := by
    intro g hg place hmem
    rw [hhost g hg] at hmem
    exact absurd hmem List.not_mem_nil
  have htext := names_synthesize hs (bodyItems c)
  cases runs_of_run hrule hr with
  | bare | save | require | textless | malformed => exact hsame
  | assign g =>
    rintro g' ⟨⟩
    exact htext
  | init g =>
    rintro g' ⟨⟩
    exact names_runInit hs c (hhost g rfl)
  | json =>
    intro g hg
    obtain ⟨g', -, rfl⟩ := Option.map_eq_some_iff.1 hg
    exact htext
  | upper g =>
    rintro g' ⟨⟩
    exact htext
  | attach => exact fun g hg => nomatch hg

/-! ## Passes -/

/-- A step looks at hosts, and may bind one in the end. -/
theorem leads_runStep (hs : s.Reachable) {n m : Node}
    (hr : runStep Registry.standard.execution n s = .ok (m, t)) : s.Leads t := by
  have hrefl : s.Leads s := .refl
  obtain ⟨-, hr⟩ | ⟨rule, done, -, hrule, hdone, -, rfl⟩ |
    ⟨command, rest, rule, done, -, -, -, hrule, hdone, -, rfl⟩ := runStep_inv hr
  · exact hrefl.touch (ExecState.Touches.refl.looks (Looks.runUse hr))
  · exact hrefl.touch (ExecRule.touches_run (isStandard_of_get? hrule) hdone)
  · have htouches := ExecRule.touches_run (isStandard_of_get? hrule) hdone
    have hnames := ExecRule.names_run (isStandard_of_get? hrule) hs
      (fun g hg => by rw [← Option.some.inj hg]) hdone
    unfold Executed.bound
    split
    · rename_i g hg
      refine (hrefl.touch htouches).bind fun place hmem => ?_
      obtain ⟨name, hb⟩ := hnames g hg place hmem
      exact ⟨name, (htouches.bound?_eq name).trans hb⟩
    · exact hrefl.touch htouches

/-- The states before the steps of a course, and the one in which it ends. -/
theorem Course.leads {o : Outcome} {steps : List (Node × ExecState)}
    (h : Course Registry.standard.execution s steps o t) (hs : s.Reachable) :
    (∀ u ∈ steps.map (·.2) ++ [t], s.Leads u) ∧ (steps.map (·.2) ++ [t]).Pairwise ExecState.Leads := by
  have hrefl {s : ExecState} : s.Leads s := .refl
  induction h with
  | completed => exact ⟨by simpa using hrefl, List.pairwise_singleton ..⟩
  | failed => exact ⟨by simpa using hrefl, by simpa using hrefl⟩
  | @halted n m s t hr =>
    have hlast : s.Leads t.last := (leads_runStep hs hr).touch (ExecState.Touches.refl.edit rfl rfl rfl)
    exact ⟨by simpa using ⟨hrefl, hlast⟩, by simpa using hlast⟩
  | @step n m s t u steps o hr _ _ ih =>
    have hnext : s.Leads t.next := (leads_runStep hs hr).touch (ExecState.Touches.refl.edit rfl rfl rfl)
    obtain ⟨hleads, hpairs⟩ := ih ((hs.runStep hr).edit rfl rfl)
    have hbehind : ∀ v ∈ steps.map (·.2) ++ [u], s.Leads v := fun v hv => hnext.trans (hleads v hv)
    exact ⟨List.forall_mem_cons.2 ⟨hrefl, hbehind⟩, List.pairwise_cons.2 ⟨hbehind, hpairs⟩⟩

/-- Before each step of a pass over any document, and at its end, every name is bound to the last host of that name
and every host made from hosts before it, so that none goes back to itself; and what is resolved in one of these
states is the same in all later ones. A step passes through states of this kind only, and what is resolved in one of
them is the same when the step ends. -/
theorem exec_consistent (document : Node) (ctx : Context) :
    let steps := stepsOf Registry.standard.execution document.children (.ofContext ctx)
    let states := steps.map (·.2) ++ [(exec Registry.standard.execution document ctx).state]
    (∀ s ∈ states, s.Consistent ∧ s.Acyclic) ∧ states.Pairwise ExecState.Keeps ∧
      ∀ step ∈ steps, ∀ m t, runStep Registry.standard.execution step.1 step.2 = .ok (m, t) →
        step.2.Leads t ∧ ∀ u, step.2.Leads u → u.Leads t →
          u.Consistent ∧ u.Acyclic ∧ step.2.Keeps u ∧ u.Keeps t := by
  intro steps states
  obtain ⟨label, children⟩ := document
  have hstart : (ExecState.ofContext ctx).Consistent := .ofContext ctx
  obtain ⟨hleads, hpairs⟩ :=
    (course_runNodes Registry.standard.execution children (.ofContext ctx)).leads (.start ctx)
  have hstates : ∀ s ∈ states, s.Consistent := fun s hs => hstart.leads (hleads s hs)
  refine ⟨fun s hs => ⟨hstates s hs, (hstates s hs).acyclic⟩, hpairs.imp ExecState.Leads.keeps,
    fun step hstep m t hr => ?_⟩
  have hreachable := (ExecState.Reachable.runNodes children (.start ctx)).1 step hstep
  have hconsistent := hstates step.2 (List.mem_append_left _ (List.mem_map_of_mem hstep))
  refine ⟨leads_runStep hreachable hr, fun u hu ht => ?_⟩
  exact ⟨hconsistent.leads hu, (hconsistent.leads hu).acyclic, hu.keeps, ht.keeps⟩

end Evomark
