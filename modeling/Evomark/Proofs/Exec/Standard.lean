import Evomark.Registry
/-!
# The standard rules

A command of the standard registry runs one of six rules, and none of them fails. What they do depends
on the rule, on whether the command stands in an assignment, and on what its body gives: `Runs` lists
the cases, each with the command, the host and the state it leaves (`runs_of_run`).
-/

namespace Evomark

namespace ExecRule

/-- The rules of the standard registry. -/
def IsStandard : ExecRule → Prop
  | .assign | .init | .save | .upper | .json | .require => True
  | _ => False

end ExecRule

/-- The standard rules by name. -/
theorem standard_of_get? {name : String} {rule : ExecRule}
    (h : Registry.standard.execution.get? name = some rule) :
    (name = "init" ∧ rule = .init) ∨ (name = "json" ∧ rule = .json) ∨ (name = "require" ∧ rule = .require) ∨
      (name = "save" ∧ rule = .save) ∨ (name = "t" ∧ rule = .assign) ∨ (name = "upper" ∧ rule = .upper) := by
  have he : Registry.standard.execution = [("init", .init), ("json", .json), ("require", .require),
      ("save", .save), ("t", .assign), ("upper", .upper)] := rfl
  rw [he] at h
  simp only [Table.get?] at h
  repeat' split at h
  all_goals first
    | (obtain rfl := Option.some.inj h; subst_vars; simp)
    | simp at h

theorem isStandard_of_get? {name : String} {rule : ExecRule}
    (h : Registry.standard.execution.get? name = some rule) : rule.IsStandard := by
  rcases standard_of_get? h with h | h | h | h | h | h <;>
  · rw [h.2]
    trivial

/-- What `upper` defers for a text and a position. -/
def upperDeferred (text : String) (position : Nat) : Deferred :=
  ⟨ExecRule.upperInput text position, some (hashOf (ExecRule.upperInput text position) "upper"), .uppercaseText⟩

namespace ExecRule

theorem attachUpper_eq (c : Node) (text : String) (position : Nat) (s : ExecState) :
    attachUpper c (upperInput text position) s =
      match ((upperDeferred text position).eval s.cache).value with
      | some (.string result) =>
        (attachResult c result, s.noteLookup ((upperDeferred text position).eval s.cache))
      | _ => (c, s.noteLookup ((upperDeferred text position).eval s.cache)) :=
  rfl

/-- What a standard rule does to the command `c` in the state `s`, given the host of an assignment. -/
inductive Runs (c : Node) (s : ExecState) : ExecRule → Option Host → Executed → Prop
  /-- There is no variable to assign to. -/
  | bare {rule : ExecRule} (h : rule = .assign ∨ rule = .init) : Runs c s rule none ⟨c, none, s⟩
  | assign (g : Host) : Runs c s .assign (some g) ⟨c, some (storeText c g s).1, (storeText c g s).2⟩
  | init (g : Host) : Runs c s .init (some g) ⟨c, some (runInit c g s).1, (runInit c g s).2⟩
  | save (host : Option Host) :
    Runs c s .save host ⟨c, host, (usedNames (bodyItems c)).foldl saveName s⟩
  | require (host : Option Host) :
    Runs c s .require host ⟨c, host, runRequire s (usedNames (bodyItems c))⟩
  /-- The body has no text, since a variable that it uses has no value. -/
  | textless {rule : ExecRule} (host : Option Host) (h : rule = .json ∨ rule = .upper)
    (ht : (synthesize s (bodyItems c)).1 = none) :
    Runs c s rule host ⟨c, host, (synthesize s (bodyItems c)).2.2⟩
  | json (host : Option Host) {text : String} {value : Json}
    (ht : (synthesize s (bodyItems c)).1 = some text) (hv : Json.read text = .ok value) :
    Runs c s .json host
      ⟨c, host.map fun g =>
        ({ g with type := .obj, dependencies := (synthesize s (bodyItems c)).2.1 }).setContent (some value),
        (synthesize s (bodyItems c)).2.2⟩
  | malformed (host : Option Host) {text : String} {e : Json.Error}
    (ht : (synthesize s (bodyItems c)).1 = some text) (he : Json.read text = .error e) :
    Runs c s .json host
      ⟨c, host, (synthesize s (bodyItems c)).2.2.warn ("Malformed JSON: " ++ e.message)⟩
  | upper (g : Host) {text : String} (ht : (synthesize s (bodyItems c)).1 = some text) :
    Runs c s .upper (some g)
      ⟨c, some (({ g with type := .str, dependencies := (synthesize s (bodyItems c)).2.1 }).setDeferred
          (upperDeferred text (synthesize s (bodyItems c)).2.2.position)),
        (synthesize s (bodyItems c)).2.2⟩
  | attach {text : String} (ht : (synthesize s (bodyItems c)).1 = some text) (input : Json)
    (hi : input = upperInput text (synthesize s (bodyItems c)).2.2.position) :
    Runs c s .upper none
      ⟨(attachUpper c input (synthesize s (bodyItems c)).2.2).1, none,
        (attachUpper c input (synthesize s (bodyItems c)).2.2).2⟩

/-- A standard rule does not fail. -/
theorem run_standard {rule : ExecRule} (h : rule.IsStandard) (c : Node) (host : Option Host)
    (s : ExecState) : ∃ done, rule.run c host s = .ok done ∧ Runs c s rule host done := by
  have heq : ∀ {text}, (synthesize s (bodyItems c)).1 = text →
      synthesize s (bodyItems c) =
        (text, (synthesize s (bodyItems c)).2.1, (synthesize s (bodyItems c)).2.2) :=
    fun ht => Prod.ext ht rfl
  cases rule with
  | warn | fatal | halt | fail | provide => exact h.elim
  | save => exact ⟨_, rfl, .save host⟩
  | require => exact ⟨_, rfl, .require host⟩
  | assign =>
    cases host with
    | none => exact ⟨_, rfl, .bare (.inl rfl)⟩
    | some g => exact ⟨_, rfl, .assign g⟩
  | init =>
    cases host with
    | none => exact ⟨_, rfl, .bare (.inr rfl)⟩
    | some g => exact ⟨_, rfl, .init g⟩
  | json =>
    cases ht : (synthesize s (bodyItems c)).1 with
    | none => exact ⟨_, by rw [run, heq ht], .textless host (.inl rfl) ht⟩
    | some text =>
      cases hread : Json.read text with
      | ok value => exact ⟨_, by rw [run, heq ht]; simp only [hread], .json host ht hread⟩
      | error e => exact ⟨_, by rw [run, heq ht]; simp only [hread], .malformed host ht hread⟩
  | upper =>
    cases ht : (synthesize s (bodyItems c)).1 with
    | none => exact ⟨_, by rw [run, heq ht], .textless host (.inr rfl) ht⟩
    | some text =>
      cases host with
      | some g => exact ⟨_, by rw [run, heq ht]; rfl, .upper g ht⟩
      | none => exact ⟨_, by rw [run, heq ht], .attach ht _ rfl⟩

theorem runs_of_run {rule : ExecRule} (h : rule.IsStandard) {c : Node} {host : Option Host}
    {s : ExecState} {done : Executed} (hr : rule.run c host s = .ok done) : Runs c s rule host done := by
  obtain ⟨done', hdone, hruns⟩ := run_standard h c host s
  obtain rfl := Except.ok.inj (hr.symm.trans hdone)
  exact hruns

end ExecRule

end Evomark
