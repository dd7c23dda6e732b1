import Evomark.Proofs.Exec.History
import Evomark.Proofs.Exec.Looks
/-!
# How a pass ends

Whether a pass fails, halts or completes can be read off the commands from first to last: it fails at
the first that uses an unbound variable or runs an unknown rule, it halts at the first that requires a
variable without a value, and it completes if there is none of these. `Scanned` says what is known of
the state before each command, `runStep_scanned` that a command is one of the three and what a step
makes of it, and `exec_scan` that the pass ends accordingly, whatever passes came before it.
-/

namespace Evomark

open ExecRule

/-- The names of the standard rules. -/
def ruleNames : List String := ["t", "init", "save", "upper", "json", "require"]

/-- What is wrong with a node, given those before it. -/
inductive Fault (before : List Node) (n : Node) : ExecError → Prop
  | unbound (hn : n.kind = .varUse) (h : ∀ m ∈ before, m.kind = .varAssign → m.content ≠ n.content) :
    Fault before n (.undefinedVariable n.content)
  | unknown {command : Node} (hc : n.command? = some command) (h : command.content ∉ ruleNames) :
    Fault before n (.unknownRule command.content)

/-- The node runs `require`, and a variable that it names has no value in this state. -/
def Waits (s : ExecState) (n : Node) : Prop :=
  ∃ command, n.command? = some command ∧ command.content = "require" ∧
    ∃ name ∈ usedNames (bodyItems command), s.Lacks name

/-! ## The standard rules -/

theorem get?_eq_none_iff (name : String) :
    Registry.standard.execution.get? name = none ↔ name ∉ ruleNames := by
  have he : Registry.standard.execution = [("init", .init), ("json", .json), ("require", .require),
      ("save", .save), ("t", .assign), ("upper", .upper)] := rfl
  rw [he]
  simp only [Table.get?, ruleNames, List.mem_cons, List.not_mem_nil, or_false]
  grind

theorem get?_eq_require_iff {name : String} {rule : ExecRule}
    (h : Registry.standard.execution.get? name = some rule) : rule = .require ↔ name = "require" := by
  rcases standard_of_get? h with h | h | h | h | h | h <;> simp [h]

namespace ExecRule

/-- A standard rule ends the pass exactly if it is `require` and a variable that it names has no value. -/
theorem run_waits {rule : ExecRule} (hrule : rule.IsStandard) (c : Node) (host : Option Host)
    {s : ExecState} (hs : s.Sound) :
    ∃ done, rule.run c host s = .ok done ∧ Option.Rel Makes host done.host ∧
      ((rule = .require ∧ (∃ name ∈ usedNames (bodyItems c), s.Lacks name) ∧
          done.state.halted = true ∧ done.state.position = s.position) ∨
        ¬ (rule = .require ∧ ∃ name ∈ usedNames (bodyItems c), s.Lacks name) ∧ Steady s done.state) := by
  obtain ⟨done, hdone, -⟩ := run_standard hrule c host s
  refine ⟨done, hdone, makes_run hrule hdone, ?_⟩
  by_cases hr : rule = .require
  · subst hr
    obtain rfl := Except.ok.inj hdone
    obtain ⟨hnone, hlooks⟩ | ⟨hsome, t, message, hlooks, hfatal⟩ :=
      runRequire_cases hs (usedNames (bodyItems c))
    · refine .inr ⟨?_, hlooks.steady⟩
      rintro ⟨-, name, hname, hlacks⟩
      exact hnone name hname hlacks
    · refine .inl ⟨rfl, hsome, ?_⟩
      show (runRequire s _).halted = true ∧ (runRequire s _).position = s.position
      rw [hfatal]
      exact ⟨rfl, hlooks.steady.position⟩
  · exact .inr ⟨fun h => hr h.1, steady_run hrule hr hdone⟩

end ExecRule

/-! ## One step -/

/-- What is known of a state in which the nodes `before` have been executed. -/
structure Scanned (before : List Node) (s : ExecState) : Prop where
  sound : s.Sound
  halted : s.halted = false
  position : s.position = before.length
  bound : ∀ name, s.bound? name = none ↔ ∀ m ∈ before, m.kind = .varAssign → m.content ≠ name

namespace Scanned

variable {before : List Node} {n : Node} {s t : ExecState}

theorem ofContext (ctx : Context) : Scanned [] (.ofContext ctx) :=
  ⟨fun _ h => absurd h List.not_mem_nil, rfl, rfl, fun _ => by simp [ExecState.bound?, ExecState.ofContext, Table.get?]⟩

/-- A step that binds nothing. -/
theorem step (h : Scanned before s) (hk : n.kind ≠ .varAssign) (ht : Steady s t) :
    t.halted = false ∧ Scanned (before ++ [n]) t.next := by
  refine ⟨ht.halted.trans h.halted, ht.sound h.sound, ht.halted.trans h.halted, ?_, fun name => ?_⟩
  · show t.position + 1 = _
    rw [ht.position, h.position, List.length_append]
    rfl
  · show t.bindings.get? name = none ↔ _
    rw [ht.bindings, ← ExecState.bound?, h.bound name]
    simp [or_imp, forall_and, hk]

/-- A step that binds a host. -/
theorem bind (h : Scanned before s) (hk : n.kind = .varAssign) (ht : Steady s t) {g : Host}
    (hn : g.name = n.content) (hg : g.Sound) :
    (t.bind g).halted = false ∧ Scanned (before ++ [n]) (t.bind g).next := by
  refine ⟨ht.halted.trans h.halted, fun g' hg' => ?_, ht.halted.trans h.halted, ?_, fun name => ?_⟩
  · rcases List.mem_append.1 hg' with hg' | hg'
    · exact ht.sound h.sound g' hg'
    · rwa [List.mem_singleton.1 hg']
  · show t.position + 1 = _
    rw [ht.position, h.position, List.length_append]
    rfl
  · show (t.bindings.insert g.name t.hosts.length).get? name = none ↔ _
    rw [Table.get?_insert, hn, ht.bindings]
    have hbound := h.bound name
    unfold ExecState.bound? at hbound
    split <;> simp_all [or_imp, forall_and]

end Scanned

/-- A use of a bound variable leaves the state steady. -/
theorem runUse_ok {n : Node} {s : ExecState} {id : Nat} (hb : s.bound? n.content = some id) :
    ∃ m t, runUse n s = .ok (m, t) ∧ Steady s t := by
  cases hr : runUse n s with
  | error e =>
    unfold runUse at hr
    simp only [hb] at hr
    split at hr <;> cases hr
  | ok r => exact ⟨_, _, rfl, (Looks.runUse hr).steady⟩

/-- A node whose command has a rule is not at fault. -/
theorem not_fault_of_rule {before : List Node} {n command : Node} {rule : ExecRule}
    (hc : n.command? = some command)
    (hrule : Registry.standard.execution.get? command.content = some rule) (e : ExecError) :
    ¬ Fault before n e := by
  rintro (⟨hn, -⟩ | ⟨hc', h⟩)
  · rw [command?_of_varUse hn] at hc
    cases hc
  · obtain rfl := Option.some.inj (hc.symm.trans hc')
    rw [← get?_eq_none_iff, hrule] at h
    cases h

theorem waits_iff {n command : Node} {rule : ExecRule} {s : ExecState} (hc : n.command? = some command)
    (hrule : Registry.standard.execution.get? command.content = some rule) :
    Waits s n ↔ rule = .require ∧ ∃ name ∈ usedNames (bodyItems command), s.Lacks name := by
  rw [get?_eq_require_iff hrule]
  constructor
  · rintro ⟨c, hc', h⟩
    obtain rfl := Option.some.inj (hc.symm.trans hc')
    exact h
  · exact fun h => ⟨command, hc, h⟩

/-- A node is at fault, or it waits, or neither, and the step fails, ends the pass, or leaves a state
for the next. -/
inductive StepEnds (before : List Node) (n : Node) (s : ExecState) : Except ExecError (Node × ExecState) → Prop
  | fails {e : ExecError} (h : Fault before n e) : StepEnds before n s (.error e)
  | halts {m : Node} {t : ExecState} (h : Waits s n) (ht : t.halted = true) (hp : t.position = s.position) :
    StepEnds before n s (.ok (m, t))
  | goesOn {m : Node} {t : ExecState} (h : ∀ e, ¬ Fault before n e) (hw : ¬ Waits s n)
    (ht : t.halted = false) (hs : Scanned (before ++ [n]) t.next) : StepEnds before n s (.ok (m, t))

/-- What a step makes of a node as it is read. -/
theorem runStep_scanned {before : List Node} {n : Node} {s : ExecState} (hn : n.kind.isCommand = true)
    (hf : n.IsFresh) (h : Scanned before s) :
    StepEnds before n s (runStep Registry.standard.execution n s) := by
  unfold runStep
  cases hk : n.kind <;> rw [hk] at hn <;> try exact absurd hn (by decide)
  case varUse =>
    simp only
    have hc := command?_of_varUse hk
    cases hb : s.bound? n.content with
    | none =>
      unfold runUse
      simp only [hb]
      exact .fails (.unbound hk ((h.bound _).1 hb))
    | some id =>
      obtain ⟨m, t, hr, hsteady⟩ := runUse_ok hb
      obtain ⟨ht, hs⟩ := h.step (n := n) (by rw [hk]; decide) hsteady
      rw [hr]
      refine .goesOn ?_ ?_ ht hs
      · rintro e (⟨-, hno⟩ | ⟨hc', -⟩)
        · rw [(h.bound _).2 hno] at hb
          cases hb
        · rw [hc] at hc'
          cases hc'
      · rintro ⟨c, hc', -⟩
        rw [hc] at hc'
        cases hc'
  case cmd =>
    simp only
    have hc := command?_of_cmd hk
    cases hrule : Registry.standard.execution.get? n.content with
    | none => exact .fails (.unknown hc ((get?_eq_none_iff _).1 hrule))
    | some rule =>
      obtain ⟨done, hdone, -, hends⟩ := run_waits (isStandard_of_get? hrule) n none h.sound
      simp only [hdone, Bind.bind, Except.bind, pure, Except.pure]
      rw [← waits_iff hc hrule] at hends
      rcases hends with ⟨hrequire, hlacks, ht, hp⟩ | ⟨hw, hsteady⟩
      · exact .halts ((waits_iff hc hrule).2 ⟨hrequire, hlacks⟩) ht hp
      · obtain ⟨ht, hs⟩ := h.step (n := n) (by rw [hk]; decide) hsteady
        exact .goesOn (not_fault_of_rule hc hrule) hw ht hs
  case varAssign =>
    simp only
    obtain ⟨command, hchildren, hcmd⟩ : ∃ command, n.children = [command] ∧ command.kind = .cmd := by
      unfold Node.IsFresh at hf
      rwa [hk] at hf
    have hc := command?_of_varAssign hk hchildren hcmd
    cases hrule : Registry.standard.execution.get? command.content with
    | none =>
      unfold runAssignment
      simp only [hchildren, hcmd, hrule]
      exact .fails (.unknown hc ((get?_eq_none_iff _).1 hrule))
    | some rule =>
      obtain ⟨done, hdone, hmakes, hends⟩ :=
        run_waits (isStandard_of_get? hrule) command (some { name := n.content }) h.sound
      rw [runAssignment_ok hchildren hcmd hrule hdone]
      rw [← waits_iff hc hrule] at hends
      obtain ⟨g, hmakes, hbound⟩ := bound_of_makes hmakes
      rw [hbound]
      rcases hends with ⟨hrequire, hlacks, ht, hp⟩ | ⟨hw, hsteady⟩
      · exact .halts ((waits_iff hc hrule).2 ⟨hrequire, hlacks⟩) ht hp
      · obtain ⟨ht, hs⟩ := h.bind hk hsteady hmakes.1 (hmakes.2 (.of_name _))
        exact .goesOn (not_fault_of_rule hc hrule) hw ht hs

/-! ## A pass -/

section

variable (ctx : Context) (items : List Node)

/-- The state in which a pass comes to the `k`-th of the commands: that in which a pass over those
before it ends. -/
def stateBefore (k : Nat) : ExecState :=
  (runNodes Registry.standard.execution (items.take k) (.ofContext ctx)).state

/-- The `k`-th command is bad. -/
def BadAt (k : Nat) (e : ExecError) : Prop := ∃ n, items[k]? = some n ∧ Fault (items.take k) n e

/-- The `k`-th command ends the pass. -/
def WaitsAt (k : Nat) : Prop := ∃ n, items[k]? = some n ∧ Waits (stateBefore ctx items k) n

/-- No command before the `k`-th is bad or ends the pass. -/
def Reached (k : Nat) : Prop :=
  k ≤ items.length ∧ ∀ j < k, (∀ e, ¬ BadAt items j e) ∧ ¬ WaitsAt ctx items j

end

/-- A node is at fault in one way. -/
theorem Fault.eq {before : List Node} {n : Node} {e e' : ExecError} (h : Fault before n e)
    (h' : Fault before n e') : e = e' := by
  cases h with
  | unbound hn =>
    cases h' with
    | unbound => rfl
    | unknown hc =>
      rw [command?_of_varUse hn] at hc
      cases hc
  | unknown hc =>
    cases h' with
    | unbound hn =>
      rw [command?_of_varUse hn] at hc
      cases hc
    | unknown hc' => rw [Option.some.inj (hc.symm.trans hc')]

/-- A node that waits is not at fault. -/
theorem Waits.not_fault {before : List Node} {n : Node} {s : ExecState} (h : Waits s n) (e : ExecError) :
    ¬ Fault before n e := by
  obtain ⟨command, hc, hrequire, -⟩ := h
  have hrule : Registry.standard.execution.get? command.content = some .require := by
    rw [hrequire]
    rfl
  exact not_fault_of_rule hc hrule e

section

variable {ctx : Context} {items : List Node}

/-- There is a command that is bad or ends the pass, and no such command before it, or there is none. -/
theorem reached_cases (ctx : Context) (items : List Node) :
    (∃ k, Reached ctx items k ∧ ((∃ e, BadAt items k e) ∨ WaitsAt ctx items k)) ∨
      Reached ctx items items.length := by
  have hfirst : ∀ k ≤ items.length,
      (∃ j, Reached ctx items j ∧ ((∃ e, BadAt items j e) ∨ WaitsAt ctx items j)) ∨ Reached ctx items k := by
    intro k
    induction k with
    | zero => exact fun _ => .inr ⟨Nat.zero_le _, fun _ h => absurd h (Nat.not_lt_zero _)⟩
    | succ k ih =>
      intro hk
      obtain hstopped | hreached := ih (by omega)
      · exact .inl hstopped
      · by_cases hstops : (∃ e, BadAt items k e) ∨ WaitsAt ctx items k
        · exact .inl ⟨k, hreached, hstops⟩
        · rw [not_or, not_exists] at hstops
          refine .inr ⟨hk, fun j hj => ?_⟩
          rcases Nat.lt_succ_iff_lt_or_eq.1 hj with hj | rfl
          · exact hreached.2 j hj
          · exact hstops
  exact hfirst _ (Nat.le_refl _)

variable (hitems : ∀ n ∈ items, (n.kind.isCommand = true ∧ n.isMarker = false) ∧ n.IsFresh)

include hitems

/-- The pass comes to each command that is reached. -/
theorem scanned_of_reached {k : Nat} (h : Reached ctx items k) :
    (runNodes Registry.standard.execution (items.take k) (.ofContext ctx)).outcome = .completed ∧
      Scanned (items.take k) (stateBefore ctx items k) := by
  induction k with
  | zero =>
    rw [stateBefore, List.take_zero, runNodes]
    exact ⟨rfl, .ofContext ctx⟩
  | succ k ih =>
    obtain ⟨hcompleted, hscanned⟩ := ih ⟨by have := h.1; omega, fun j hj => h.2 j (by omega)⟩
    obtain ⟨hbad, hwaits⟩ := h.2 k (Nat.lt_succ_self k)
    have hlt : k < items.length := h.1
    have hk : items[k]? = some items[k] := List.getElem?_eq_getElem hlt
    obtain ⟨⟨hn, hm⟩, hf⟩ := hitems _ (List.getElem_mem hlt)
    obtain ⟨hstate, houtcome⟩ := runNodes_append_of_completed [items[k]]
      (fun n hn => (hitems n (List.mem_of_mem_take hn)).1) hcompleted
    rw [stateBefore, ← List.take_append_getElem hlt, hstate, houtcome, ← stateBefore]
    have hends := runStep_scanned hn hf hscanned
    cases hr : runStep Registry.standard.execution items[k] (stateBefore ctx items k) with
    | error e =>
      rw [hr] at hends
      cases hends with
      | fails hfault => exact absurd ⟨_, hk, hfault⟩ (hbad e)
    | ok r =>
      rw [hr] at hends
      cases hends with
      | halts hw => exact absurd ⟨_, hk, hw⟩ hwaits
      | goesOn _ _ ht hs =>
        rw [runNodes_of_ok hn hm hr ht, runNodes]
        exact ⟨rfl, hs⟩

/-- At a command that is reached the pass ends as its step ends. -/
theorem runNodes_of_reached {k : Nat} (h : Reached ctx items k) {n : Node} (hk : items[k]? = some n) :
    let w := runNodes Registry.standard.execution items (.ofContext ctx)
    (∃ e, BadAt items k e ∧ w.outcome = .failed e) ∨
      (WaitsAt ctx items k ∧ w.outcome = .halted ∧ w.state.position = k) ∨
      (∀ e, ¬ BadAt items k e) ∧ ¬ WaitsAt ctx items k := by
  intro w
  obtain ⟨hlt, rfl⟩ := List.getElem?_eq_some_iff.1 hk
  obtain ⟨hcompleted, hscanned⟩ := scanned_of_reached hitems h
  obtain ⟨⟨hn, hm⟩, hf⟩ := hitems _ (List.getElem_mem hlt)
  obtain ⟨hstate, houtcome⟩ := runNodes_append_of_completed (items.drop k)
    (fun n hn => (hitems n (List.mem_of_mem_take hn)).1) hcompleted
  rw [List.take_append_drop, List.drop_eq_getElem_cons hlt] at hstate houtcome
  have hends := runStep_scanned hn hf hscanned
  unfold stateBefore at hends
  cases hr : runStep Registry.standard.execution items[k] (stateBefore ctx items k) with
  | error e =>
    unfold stateBefore at hr
    rw [hr] at hends
    rw [runNodes_of_error hn hm hr] at houtcome
    cases hends with
    | fails hfault => exact .inl ⟨e, ⟨_, hk, hfault⟩, houtcome⟩
  | ok r =>
    obtain ⟨m, t⟩ := r
    unfold stateBefore at hr
    rw [hr] at hends
    cases hends with
    | halts hw ht hp =>
      rw [runNodes_of_halted hn hm hr ht] at hstate houtcome
      refine .inr (.inl ⟨⟨_, hk, hw⟩, houtcome, ?_⟩)
      show w.state.position = k
      rw [hstate]
      show t.position = k
      rw [hp, ← stateBefore, hscanned.position, List.length_take, Nat.min_eq_left h.1]
    | goesOn hfault hw =>
      refine .inr (.inr ⟨?_, ?_⟩)
      · rintro e ⟨n, hn', hbad⟩
        obtain rfl := Option.some.inj (hk.symm.trans hn')
        exact hfault e hbad
      · rintro ⟨n, hn', hwaits⟩
        obtain rfl := Option.some.inj (hk.symm.trans hn')
        exact hw hwaits

theorem failed_of_bad {k : Nat} {e : ExecError} (hk : BadAt items k e) (h : Reached ctx items k) :
    (runNodes Registry.standard.execution items (.ofContext ctx)).outcome = .failed e := by
  obtain ⟨n, hn, hfault⟩ := hk
  obtain ⟨e', ⟨n', hn', hfault'⟩, hw⟩ | ⟨⟨n', hn', hwaits⟩, -⟩ | ⟨hno, -⟩ :=
    runNodes_of_reached hitems h hn
  · obtain rfl := Option.some.inj (hn.symm.trans hn')
    rw [hw, hfault.eq hfault']
  · obtain rfl := Option.some.inj (hn.symm.trans hn')
    exact absurd hfault (hwaits.not_fault e)
  · exact absurd ⟨n, hn, hfault⟩ (hno e)

theorem halted_of_waits {k : Nat} (hk : WaitsAt ctx items k) (h : Reached ctx items k) :
    (runNodes Registry.standard.execution items (.ofContext ctx)).outcome = .halted ∧
      (runNodes Registry.standard.execution items (.ofContext ctx)).state.position = k := by
  obtain ⟨n, hn, hwaits⟩ := hk
  obtain ⟨e, ⟨n', hn', hfault⟩, -⟩ | ⟨-, hw⟩ | ⟨-, hno⟩ := runNodes_of_reached hitems h hn
  · obtain rfl := Option.some.inj (hn.symm.trans hn')
    exact absurd hfault (hwaits.not_fault e)
  · exact hw
  · exact absurd ⟨n, hn, hwaits⟩ hno

theorem completed_of_reached (h : Reached ctx items items.length) :
    (runNodes Registry.standard.execution items (.ofContext ctx)).outcome = .completed ∧
      (runNodes Registry.standard.execution items (.ofContext ctx)).state.position = items.length := by
  obtain ⟨hcompleted, hscanned⟩ := scanned_of_reached hitems h
  have hposition := hscanned.position
  unfold stateBefore at hposition
  rw [List.take_length] at hcompleted hposition
  exact ⟨hcompleted, hposition⟩

/-- A pass over the commands ends at the first that is bad or ends it, or behind the last. -/
theorem runNodes_scanned :
    let w := runNodes Registry.standard.execution items (.ofContext ctx)
    (∀ e, w.outcome = .failed e ↔ ∃ k, BadAt items k e ∧ Reached ctx items k) ∧
      (∀ k, w.outcome = .halted ∧ w.state.position = k ↔ WaitsAt ctx items k ∧ Reached ctx items k) ∧
      ∀ k, w.outcome = .completed ∧ w.state.position = k ↔ k = items.length ∧ Reached ctx items k := by
  intro w
  have hends : (∃ k e, (BadAt items k e ∧ Reached ctx items k) ∧ w.outcome = .failed e) ∨
      (∃ k, (WaitsAt ctx items k ∧ Reached ctx items k) ∧ w.outcome = .halted ∧ w.state.position = k) ∨
      Reached ctx items items.length ∧ w.outcome = .completed ∧ w.state.position = items.length := by
    obtain ⟨k, h, ⟨e, he⟩ | hk⟩ | h := reached_cases ctx items
    · exact .inl ⟨k, e, ⟨he, h⟩, failed_of_bad hitems he h⟩
    · exact .inr (.inl ⟨k, ⟨hk, h⟩, halted_of_waits hitems hk h⟩)
    · exact .inr (.inr ⟨h, completed_of_reached hitems h⟩)
  refine ⟨fun e => ⟨fun he => ?_, fun ⟨k, hk, h⟩ => failed_of_bad hitems hk h⟩,
    fun k => ⟨fun ⟨ho, hp⟩ => ?_, fun h => halted_of_waits hitems h.1 h.2⟩,
    fun k => ⟨fun ⟨ho, hp⟩ => ?_, fun ⟨hk, h⟩ => ?_⟩⟩
  · obtain ⟨k, e', hk, hw⟩ | ⟨k, -, hw, -⟩ | ⟨-, hw, -⟩ := hends
    · obtain rfl := Outcome.failed.inj (hw.symm.trans he)
      exact ⟨k, hk⟩
    · exact Outcome.noConfusion (hw.symm.trans he)
    · exact Outcome.noConfusion (hw.symm.trans he)
  · obtain ⟨k', e, -, hw⟩ | ⟨k', hk, -, hp'⟩ | ⟨-, hw, -⟩ := hends
    · exact Outcome.noConfusion (hw.symm.trans ho)
    · obtain rfl := hp'.symm.trans hp
      exact hk
    · exact Outcome.noConfusion (hw.symm.trans ho)
  · obtain ⟨k', e, -, hw⟩ | ⟨k', -, hw, -⟩ | ⟨h, -, hp'⟩ := hends
    · exact Outcome.noConfusion (hw.symm.trans ho)
    · exact Outcome.noConfusion (hw.symm.trans ho)
    · obtain rfl := hp'.symm.trans hp
      exact ⟨rfl, h⟩
  · subst hk
    exact completed_of_reached hitems h

end

/-- Passes leave the commands that they find, but for results. -/
theorem itemsOf_afterPasses (rules : Table ExecRule) (document : Node) (passes : List Context)
    (h : SepsAreLeaves document.children) :
    (itemsOf (afterPasses rules document passes).children).map Node.plain =
      (itemsOf document.children).map Node.plain := by
  induction passes generalizing document with
  | nil => rfl
  | cons ctx more ih =>
    obtain ⟨label, children⟩ := document
    obtain ⟨hseps, hitems⟩ := itemsOf_runNodes rules children (.ofContext ctx) h
    exact (ih (exec rules ⟨label, children⟩ ctx).document hseps).trans hitems

/-- A pass fails at the first command that is bad, halts at the first that waits for a variable, and
completes if there is neither; its position tells which command that was. Earlier passes change neither
the commands nor the outcome. -/
theorem exec_scan (source : String) (passes : List Context) (ctx : Context) :
    let rules := Registry.standard.execution
    let document := (Registry.standard.parse source).document
    let left := afterPasses rules document passes
    let last := exec rules left ctx
    let items := itemsOf document.children
    (itemsOf left.children).map Node.plain = items.map Node.plain ∧
      (∀ e, last.outcome = .failed e ↔ ∃ k, BadAt items k e ∧ Reached ctx items k) ∧
      (∀ k, last.outcome = .halted ∧ last.state.position = k ↔
        WaitsAt ctx items k ∧ Reached ctx items k) ∧
      ∀ k, last.outcome = .completed ∧ last.state.position = k ↔
        k = items.length ∧ Reached ctx items k := by
  intro rules document left last items
  have hfresh : AllFresh document.children := Markup.fresh_parse _ _ source
  obtain ⟨hstate, houtcome⟩ := ends_afterPasses rules document passes ctx
  obtain ⟨hs, ho⟩ := runNodes_itemsOf rules document.children (.ofContext ctx) hfresh.sepsAreLeaves
  have hitems : ∀ n ∈ items, (n.kind.isCommand = true ∧ n.isMarker = false) ∧ n.IsFresh := fun n hn =>
    ⟨(mem_itemsOf.1 hn).2, hfresh n (mem_itemsOf.1 hn).1⟩
  refine ⟨itemsOf_afterPasses rules document passes hfresh.sepsAreLeaves, ?_⟩
  rw [show last.state = _ from hstate.trans hs.symm, show last.outcome = _ from houtcome.trans ho.symm]
  exact runNodes_scanned hitems

end Evomark
