import Evomark.Exec.Pass
/-!
# What a step does to its node

A pass changes a command only by the literal that shows its result. `Node.plain` is a command
without such a literal. `ExecRule.run_cases` lists what a rule does to a command, and
`runStep_cases` what a step does to a node: the node keeps its label, and a step makes the same of
a node as of its plain form, except that a command without a new result keeps an old one.

* `plain_of_runStep`: a step keeps the label and the plain form;
* `runStep_again`: executed again from the same state, a node stays as it is.
-/

namespace Evomark

namespace Node

/-- The node without the literals that earlier passes attached to it. An assignment has none. -/
def plain (n : Node) : Node :=
  if n.kind = .varAssign then n else n.withChildren (n.children.filter (·.kind != .literal))

theorem plain_label (n : Node) : n.plain.label = n.label := by
  unfold plain
  split <;> rfl

theorem plain_kind (n : Node) : n.plain.kind = n.kind := congrArg Label.kind n.plain_label

theorem plain_content (n : Node) : n.plain.content = n.content := congrArg Label.content n.plain_label

theorem plain_of_varAssign {n : Node} (h : n.kind = .varAssign) : n.plain = n := if_pos h

theorem plain_of_ne {n : Node} (h : n.kind ≠ .varAssign) :
    n.plain = n.withChildren (n.children.filter (·.kind != .literal)) := if_neg h

theorem plain_plain (n : Node) : n.plain.plain = n.plain := by
  by_cases h : n.kind = .varAssign
  · rw [plain_of_varAssign h, plain_of_varAssign h]
  · rw [plain_of_ne (n := n.plain) (by rwa [plain_kind]), plain_of_ne h]
    simp only [withChildren, List.filter_filter, Bool.and_self]

end Node

theorem isMarker_of_label {n m : Node} (h : m.label = n.label) : m.isMarker = n.isMarker := by
  simp only [Node.isMarker, Node.kind, Node.content, h]

theorem isCommand_of_label {n m : Node} (h : m.label = n.label) :
    m.kind.isCommand = n.kind.isCommand := by
  simp only [Node.kind, h]

theorem Node.isMarker_plain (n : Node) : n.plain.isMarker = n.isMarker :=
  isMarker_of_label n.plain_label

theorem Node.isCommand_plain (n : Node) : n.plain.kind.isCommand = n.kind.isCommand :=
  isCommand_of_label n.plain_label

namespace ExecRule

/-- A body is found whatever literals stand beside it. -/
theorem bodyItems_plain (n : Node) : bodyItems n.plain = bodyItems n := by
  by_cases h : n.kind = .varAssign
  · rw [Node.plain_of_varAssign h]
  · rw [Node.plain_of_ne h]
    simp only [bodyItems, Node.firstBody?, Node.withChildren, List.find?_filter]
    congr 2
    refine congrArg (List.find? · n.children) (funext fun m => ?_)
    cases hk : m.kind <;> rfl

theorem plain_attachResult {n : Node} (h : n.kind ≠ .varAssign) (text : String) :
    (attachResult n text).plain = n.plain := by
  have hk : (attachResult n text).kind ≠ .varAssign := h
  rw [Node.plain_of_ne hk, Node.plain_of_ne h]
  simp only [attachResult, Node.withChildren, List.filter_append, List.filter_filter, Bool.and_self]
  simp [Node.leaf, Node.kind]

/-- A result takes the place of any earlier one. -/
theorem attachResult_plain {n : Node} (h : n.kind ≠ .varAssign) (text : String) :
    attachResult n.plain text = attachResult n text := by
  rw [Node.plain_of_ne h]
  simp only [attachResult, Node.withChildren, List.filter_filter, Bool.and_self]

/-- The bodies of two commands have the same text. -/
structure SameText (c c' : Node) : Prop where
  synthesize : ∀ s, Evomark.synthesize s (bodyItems c') = Evomark.synthesize s (bodyItems c)
  usedNames : Evomark.usedNames (bodyItems c') = Evomark.usedNames (bodyItems c)

theorem SameText.of_bodyItems {c c' : Node} (h : bodyItems c' = bodyItems c) : SameText c c' :=
  ⟨fun _ => by rw [h], by rw [h]⟩

theorem SameText.storeText {c c' : Node} (h : SameText c c') :
    ExecRule.storeText c' = ExecRule.storeText c := by
  funext g s
  simp only [ExecRule.storeText, h.synthesize]

/-- What a rule does depends on the text of the body of its command. It fails or leaves the command as it
is; only `upper` outside an assignment attaches a result to it. -/
theorem run_cases (rule : ExecRule) {c c' : Node} (host : Option Host) (s : ExecState)
    (h : SameText c c') :
    (∃ e, rule.run c host s = .error e ∧ rule.run c' host s = .error e) ∨
    (∃ g t, rule.run c host s = .ok ⟨c, g, t⟩ ∧ rule.run c' host s = .ok ⟨c', g, t⟩) ∨
    (rule = .upper ∧ host = none ∧ ∃ text t, rule.run c host s = .ok ⟨attachResult c text, none, t⟩ ∧
      rule.run c' host s = .ok ⟨attachResult c' text, none, t⟩) := by
  cases rule with
  | assign | init =>
    refine .inr (.inl ?_)
    cases host with
    | none => exact ⟨_, _, rfl, rfl⟩
    | some g =>
      simp only [run, runInit, initText, h.storeText]
      exact ⟨_, _, rfl, rfl⟩
  | save | require | warn | fatal | halt | provide =>
    exact .inr (.inl ⟨_, _, rfl, by simp only [run, h.usedNames]⟩)
  | fail cause => exact .inl ⟨cause, rfl, rfl⟩
  | json =>
    refine .inr (.inl ?_)
    simp only [run, h.synthesize]
    split
    · exact ⟨_, _, rfl, rfl⟩
    · split <;> exact ⟨_, _, rfl, rfl⟩
  | upper =>
    simp only [run, h.synthesize]
    split
    · exact .inr (.inl ⟨_, _, rfl, rfl⟩)
    · cases host with
      | some h => exact .inr (.inl ⟨_, _, rfl, rfl⟩)
      | none =>
        simp only [attachUpper]
        split
        · exact .inr (.inr ⟨trivial, trivial, _, _, rfl, rfl⟩)
        · exact .inr (.inl ⟨_, _, rfl, rfl⟩)

end ExecRule

/-! ## Steps -/

/-- The command that is run: the node itself, or the one that an assignment stands over. -/
def Node.command? (n : Node) : Option Node :=
  match n.kind with
  | .cmd => some n
  | .varAssign => n.children.head?.filter (·.kind == .cmd)
  | _ => none

theorem command?_of_cmd {n : Node} (hk : n.kind = .cmd) : n.command? = some n := by
  rw [Node.command?, hk]

theorem command?_of_varAssign {n command : Node} {rest : List Node} (hk : n.kind = .varAssign)
    (hc : n.children = command :: rest) (hcmd : command.kind = .cmd) : n.command? = some command := by
  rw [Node.command?, hk]
  simp [hc, hcmd]

theorem command?_of_varUse {n : Node} (hk : n.kind = .varUse) : n.command? = none := by
  rw [Node.command?, hk]

theorem command?_cases {n command : Node} (h : n.command? = some command) :
    (n.kind = .cmd ∧ command = n) ∨
      (n.kind = .varAssign ∧ ∃ rest, n.children = command :: rest ∧ command.kind = .cmd) := by
  unfold Node.command? at h
  split at h
  · rename_i hk
    exact .inl ⟨hk, (Option.some.inj h).symm⟩
  · rename_i hk
    obtain ⟨hhead, hcmd⟩ := Option.filter_eq_some_iff.1 h
    obtain ⟨rest, hchildren⟩ := List.head?_eq_some_iff.1 hhead
    exact .inr ⟨hk, rest, hchildren, by simpa using hcmd⟩
  · cases h

/-- The state behind an assignment whose command has been executed. -/
def Executed.bound (done : Executed) : ExecState :=
  match done.host with
  | some g => done.state.bind g
  | none => done.state

theorem runAssignment_ok {rules : Table ExecRule} {n command : Node} {rest : List Node} {s : ExecState}
    {rule : ExecRule} {done : Executed} (hc : n.children = command :: rest) (hk : command.kind = .cmd)
    (hrule : rules.get? command.content = some rule)
    (hr : rule.run command (some { name := n.content }) s = .ok done) :
    runAssignment rules n s = .ok (n.withChildren (done.command :: rest), done.bound) := by
  unfold runAssignment
  simp only [hc, hk, hrule, hr]
  rfl

/-- What an assignment does that does not fail. -/
theorem runAssignment_inv {rules : Table ExecRule} {n m : Node} {s t : ExecState}
    (hr : runAssignment rules n s = .ok (m, t)) :
    ∃ command rest rule done, n.children = command :: rest ∧ command.kind = .cmd ∧
      rules.get? command.content = some rule ∧
      rule.run command (some { name := n.content }) s = .ok done ∧
      m = n.withChildren (done.command :: rest) ∧ t = done.bound := by
  unfold runAssignment at hr
  split at hr
  · simp at hr
  · rename_i command rest hchildren
    split at hr
    · simp at hr
    · rename_i hk
      split at hr
      · simp at hr
      · rename_i rule hrule
        cases hdone : rule.run command (some { name := n.content }) s with
        | error e =>
          rw [hdone] at hr
          simp [Bind.bind, Except.bind] at hr
        | ok done =>
          rw [hdone] at hr
          obtain ⟨rfl, rfl⟩ := Prod.mk.inj (Except.ok.inj hr)
          exact ⟨command, rest, rule, done, hchildren, by simpa using hk, hrule, hdone, rfl, rfl⟩

/-- What a step does that does not fail: a use of a variable, a command with a rule, or an assignment
over such a command. -/
theorem runStep_inv {rules : Table ExecRule} {n m : Node} {s t : ExecState}
    (hr : runStep rules n s = .ok (m, t)) :
    (n.kind = .varUse ∧ runUse n s = .ok (m, t)) ∨
    (∃ rule done, n.kind = .cmd ∧ rules.get? n.content = some rule ∧ rule.run n none s = .ok done ∧
      m = done.command ∧ t = done.state) ∨
    (∃ command rest rule done, n.kind = .varAssign ∧ n.children = command :: rest ∧ command.kind = .cmd ∧
      rules.get? command.content = some rule ∧
      rule.run command (some { name := n.content }) s = .ok done ∧
      m = n.withChildren (done.command :: rest) ∧ t = done.bound) := by
  unfold runStep at hr
  split at hr
  · rename_i hk
    exact .inl ⟨hk, hr⟩
  · rename_i hk
    obtain ⟨command, rest, rule, done, h⟩ := runAssignment_inv hr
    exact .inr (.inr ⟨command, rest, rule, done, hk, h⟩)
  · rename_i hk
    split at hr
    · simp at hr
    · rename_i rule hrule
      cases hdone : rule.run n none s with
      | error e =>
        rw [hdone] at hr
        simp [Bind.bind, Except.bind] at hr
      | ok done =>
        rw [hdone] at hr
        obtain ⟨rfl, rfl⟩ := Prod.mk.inj (Except.ok.inj hr)
        exact .inr (.inl ⟨rule, done, hk, hrule, hdone, rfl, rfl⟩)
  · simp at hr

/-- A use keeps its label and its plain form, and the value it shows does not depend on earlier
ones. -/
theorem runUse_plain {n : Node} (h : n.kind = .varUse) (s : ExecState) :
    runUse n.plain s = runUse n s := by
  rw [Node.plain_of_ne (by rw [h]; decide)]
  simp only [runUse, Node.withChildren, Node.content, List.filter_filter, Bool.and_self]

theorem plain_of_runUse {n m : Node} {s t : ExecState} (h : n.kind = .varUse)
    (hr : runUse n s = .ok (m, t)) : m.label = n.label ∧ m.plain = n.plain := by
  have hn : n.kind ≠ .varAssign := by rw [h]; decide
  unfold runUse at hr
  split at hr
  · simp at hr
  · simp only at hr
    split at hr <;>
    · simp only [Except.ok.injEq, Prod.mk.injEq] at hr
      obtain ⟨rfl, -⟩ := hr
      refine ⟨rfl, ?_⟩
      rw [Node.plain_of_ne hn, Node.plain_of_ne (n := n.withChildren _) hn]
      simp [Node.withChildren, List.filter_filter, Node.leaf, Node.kind]

/-- An assignment stays as it is. -/
theorem eq_of_runAssignment {rules : Table ExecRule} {n m : Node} {s t : ExecState}
    (hr : runAssignment rules n s = .ok (m, t)) : m = n := by
  obtain ⟨label, children⟩ := n
  obtain ⟨command, rest, rule, done, hchildren, -, -, hdone, rfl, -⟩ := runAssignment_inv hr
  have hcommand : done.command = command := by
    obtain ⟨e, he, -⟩ | ⟨g, u, he, -⟩ | ⟨-, hno, -⟩ :=
      rule.run_cases (some { name := label.content }) s (ExecRule.SameText.of_bodyItems (c := command) rfl)
    · cases he.symm.trans hdone
    · rw [Except.ok.inj (hdone.symm.trans he)]
    · cases hno
  rw [hcommand, ← hchildren]
  rfl

/-- What a step can do: it makes the same of a node as of its plain form, and keeps the label and the
plain form; but a command without a new result stays as it is. -/
theorem runStep_cases (rules : Table ExecRule) {n : Node} (hn : n.kind.isCommand = true) (s : ExecState) :
    (∃ e, runStep rules n.plain s = .error e ∧ runStep rules n s = .error e) ∨
    (∃ m t, runStep rules n.plain s = .ok (m, t) ∧ m.label = n.label ∧ m.plain = n.plain ∧
      (runStep rules n s = .ok (m, t) ∨
        n.kind = .cmd ∧ m = n.plain ∧ runStep rules n s = .ok (n, t))) := by
  unfold runStep
  rw [Node.plain_kind, Node.plain_content]
  cases hk : n.kind <;> rw [hk] at hn <;> try simp [Kind.isCommand] at hn
  case varUse =>
    simp only [runUse_plain hk]
    cases hr : runUse n s with
    | error e => exact .inl ⟨e, rfl, rfl⟩
    | ok r => exact .inr ⟨_, _, rfl, (plain_of_runUse hk hr).1, (plain_of_runUse hk hr).2, .inl rfl⟩
  case varAssign =>
    simp only [Node.plain_of_varAssign hk]
    cases hr : runAssignment rules n s with
    | error e => exact .inl ⟨e, rfl, rfl⟩
    | ok r =>
      have hm : r.1 = n := eq_of_runAssignment hr
      exact .inr ⟨_, _, rfl, by rw [hm], by rw [hm, Node.plain_of_varAssign hk], .inl rfl⟩
  case cmd =>
    have hv : n.kind ≠ .varAssign := by rw [hk]; decide
    cases hrule : rules.get? n.content with
    | none => exact .inl ⟨_, rfl, rfl⟩
    | some rule =>
      simp only
      obtain ⟨e, he, he'⟩ | ⟨g, t, he, he'⟩ | ⟨-, -, text, t, he, he'⟩ :=
        rule.run_cases none s (.of_bodyItems (ExecRule.bodyItems_plain n))
      · rw [he, he']
        exact .inl ⟨e, rfl, rfl⟩
      · rw [he, he']
        exact .inr ⟨_, _, rfl, n.plain_label, n.plain_plain, .inr ⟨trivial, rfl, rfl⟩⟩
      · rw [he, he', ExecRule.attachResult_plain hv]
        exact .inr ⟨_, _, rfl, rfl, ExecRule.plain_attachResult hv text, .inl rfl⟩

theorem plain_of_runStep {rules : Table ExecRule} {n m : Node} {s t : ExecState}
    (hn : n.kind.isCommand = true) (hr : runStep rules n s = .ok (m, t)) :
    m.label = n.label ∧ m.plain = n.plain := by
  obtain ⟨e, -, he⟩ | ⟨m', t', -, hl, hp, he | ⟨-, -, he⟩⟩ := runStep_cases rules hn s
  · rw [hr] at he
    simp at he
  · rw [hr] at he
    simp only [Except.ok.injEq, Prod.mk.injEq] at he
    rw [he.1]
    exact ⟨hl, hp⟩
  · rw [hr] at he
    simp only [Except.ok.injEq, Prod.mk.injEq] at he
    rw [he.1]
    exact ⟨rfl, rfl⟩

/-- What a step leaves is executed by the next pass as well. -/
theorem isCommand_of_runStep {rules : Table ExecRule} {n m : Node} {s t : ExecState}
    (hn : n.kind.isCommand = true) (hm : n.isMarker = false) (hr : runStep rules n s = .ok (m, t)) :
    m.kind.isCommand = true ∧ m.isMarker = false := by
  have hl := (plain_of_runStep hn hr).1
  rw [isCommand_of_label hl, isMarker_of_label hl]
  exact ⟨hn, hm⟩

/-- Executed again from the same state, a node stays as it is. -/
theorem runStep_again {rules : Table ExecRule} {n m : Node} {s t : ExecState}
    (hn : n.kind.isCommand = true) (hr : runStep rules n s = .ok (m, t)) :
    runStep rules m s = .ok (m, t) := by
  obtain ⟨hl, hp⟩ := plain_of_runStep hn hr
  have hm : m.kind.isCommand = true := by rw [Node.kind, hl]; exact hn
  obtain ⟨e, -, he⟩ | ⟨m', t', hplain, -, -, he | ⟨-, -, he⟩⟩ := runStep_cases rules hn s
  · rw [hr] at he
    simp at he
  · rw [hr] at he
    simp only [Except.ok.injEq, Prod.mk.injEq] at he
    obtain ⟨rfl, rfl⟩ := he
    rw [← hp] at hplain
    obtain ⟨e, he, -⟩ | ⟨m'', t'', hplain', -, -, he | ⟨-, -, he⟩⟩ := runStep_cases rules hm s
    · rw [hplain] at he
      simp at he
    · rw [he, ← hplain', hplain]
    · rw [he]
      rw [hplain] at hplain'
      simp only [Except.ok.injEq, Prod.mk.injEq] at hplain'
      rw [hplain'.2]
  · rw [hr] at he
    simp only [Except.ok.injEq, Prod.mk.injEq] at he
    obtain ⟨rfl, rfl⟩ := he
    exact hr

end Evomark
