import Mathlib.Data.List.Basic
import Evomark.Proofs.Exec.Peeks
import Evomark.Proofs.Exec.Standard
import Evomark.Proofs.Exec.Trace
/-!
# What a pass keeps

A property of the states of a pass often needs one of the hosts that are assigned, and one of the names
that commands use. `Kept N I New H` lists what has to be shown of these, one clause for each thing that
the standard rules do. Rules, steps and passes keep the properties then: `Kept.run`, `Kept.runStep`,
`Kept.runNodes`.
-/

namespace Evomark

/-- What rules do keeps `I` of states and `H` of the host of an assignment, if that host is `New` when a
rule is given it and names are of `N`. -/
structure Kept (N : String → Prop) (I : ExecState → Prop) (New H : Host → Prop) : Prop where
  /-- A host that no rule has changed yet. -/
  new : ∀ {name : String}, N name → New { name }
  same : ∀ {g : Host}, New g → H g
  look : ∀ {s : ExecState}, I s → ∀ id, I (s.look id).2
  undefined : ∀ {s : ExecState} {name : String}, I s → N name → I (s.warn (ExecState.undefinedWarning name))
  /-- `require` ends the pass. -/
  waiting : ∀ {s : ExecState} {names : List String}, I s → names ≠ [] → (∀ name ∈ names, N name) →
    I (s.fatal ("Waiting for required variables: " ++ String.intercalate ", " names))
  malformed : ∀ {s : ExecState} {source : String} {e : Json.Error}, I s → Json.read source = .error e →
    I (s.warn ("Malformed JSON: " ++ e.message))
  /-- A saved variable cannot be taken out again. -/
  refused : ∀ {s : ExecState} {g : Host} {saved : SavedVar} {e : SavedVarError}, I s → H g →
    s.saved.get? g.name = some saved → saved.decode g.name = .error e → I (s.warn e.message)
  saveBound : ∀ {s : ExecState}, I s → ∀ id, I (s.saveBound id)
  saveHost : ∀ {s : ExecState} {g : Host}, I s → H g → I (s.saveHost g).2 ∧ H (s.saveHost g).1
  /-- `upper` outside an assignment. -/
  eval : ∀ {s : ExecState}, I s → ∀ text position,
    I (s.noteLookup ((upperDeferred text position).eval s.cache))
  text : ∀ {g : Host}, H g → ∀ dependencies (text : Option String),
    H (({ g with type := .str, dependencies }).setContent (text.map .string))
  /-- `init` under a name that is bound. -/
  bound : ∀ {s : ExecState} {g : Host}, I s → H g → ∀ (id : Nat),
    H (({ g with type := ((s.host? id).map Host.type).getD g.type, dependencies := [some id] }).setContent
      (s.look id).1)
  /-- `init` under a name that is saved. -/
  saved : ∀ {s : ExecState} {g : Host} {saved : SavedVar} {value : Json}, I s → H g →
    s.saved.get? g.name = some saved → saved.decode g.name = .ok value →
    H (({ g with type := saved.type }).setContent (some value))
  json : ∀ {g : Host} {source : String} {value : Json}, H g → ∀ dependencies, Json.read source = .ok value →
    H (({ g with type := .obj, dependencies }).setContent (some value))
  upper : ∀ {g : Host}, New g → ∀ dependencies text position,
    H (({ g with type := .str, dependencies }).setDeferred (upperDeferred text position))
  bind : ∀ {s : ExecState} {g : Host}, I s → H g → I (s.bind g)
  next : ∀ {s : ExecState}, I s → I s.next
  last : ∀ {s : ExecState}, I s → I s.last

namespace Kept

variable {N : String → Prop} {I : ExecState → Prop} {New H : Host → Prop} (k : Kept N I New H)
variable {s t : ExecState} {c : Node} {g : Host} {names : List String}

include k

/-! ## Looks -/

theorem peeks (hs : I s) (hp : Peeks s t) : I t := by
  induction hp with
  | refl => exact hs
  | look id _ ih => exact k.look ih id

theorem warnAll (hn : ∀ name ∈ names, N name) (hs : I s) :
    I (names.foldl (fun s name => s.warn (ExecState.undefinedWarning name)) s) := by
  induction names generalizing s with
  | nil => exact hs
  | cons name rest ih =>
    obtain ⟨hname, hrest⟩ := List.forall_mem_cons.1 hn
    exact ih hrest (k.undefined hs hname)

theorem synthesize {items : List Node} (hn : ∀ name ∈ usedNames items, N name) (hs : I s) :
    I (synthesize s items).2.2 := by
  have hresolved := k.peeks hs ((Peeks.refl s).resolveNames (usedNames items))
  unfold Evomark.synthesize
  simp only
  split
  · exact k.peeks hresolved ((Peeks.refl _).assemble items _)
  · exact k.warnAll (fun name hname => hn name (mem_of_mem_unresolved _ hname)) hresolved

/-! ## Rules -/

theorem runRequire (hn : ∀ name ∈ names, N name) (hs : I s) : I (ExecRule.runRequire s names) := by
  have hresolved := k.peeks hs ((Peeks.refl s).resolveNames names)
  unfold ExecRule.runRequire
  simp only [missingNames_eq]
  split
  · exact hresolved
  · rename_i hne
    refine k.waiting hresolved (by simpa using hne) fun name hname => ?_
    exact hn name (mem_of_mem_unresolved _ hname)

theorem saveNames (hn : ∀ name ∈ names, N name) (hs : I s) : I (names.foldl ExecRule.saveName s) := by
  induction names generalizing s with
  | nil => exact hs
  | cons name rest ih =>
    obtain ⟨hname, hrest⟩ := List.forall_mem_cons.1 hn
    refine ih hrest ?_
    unfold ExecRule.saveName
    split
    · exact k.saveBound hs _
    · exact k.undefined hs hname

section

variable (hn : ∀ name ∈ usedNames (ExecRule.bodyItems c), N name)

include hn

theorem storeText (hs : I s) (hg : H g) :
    I (ExecRule.storeText c g s).2 ∧ H (ExecRule.storeText c g s).1 :=
  ⟨k.synthesize hn hs, k.text hg _ _⟩

theorem initText (hs : I s) (hg : H g) : I (ExecRule.initText c g s).2 ∧ H (ExecRule.initText c g s).1 := by
  obtain ⟨hstored, hhost⟩ := k.storeText hn hs hg
  unfold ExecRule.initText
  simp only
  split
  · exact k.saveHost hstored hhost
  · exact ⟨hstored, hhost⟩

theorem runInit (hs : I s) (hg : H g) : I (ExecRule.runInit c g s).2 ∧ H (ExecRule.runInit c g s).1 := by
  unfold ExecRule.runInit
  split
  · exact ⟨k.look hs _, k.bound hs hg _⟩
  · split
    · exact k.initText hn hs hg
    · rename_i saved hsaved
      split
      · rename_i value hdecode
        exact ⟨hs, k.saved hs hg hsaved hdecode⟩
      · rename_i e hdecode
        exact k.initText hn (k.refused hs hg hsaved hdecode) hg

/-- What a standard rule does. -/
theorem run {rule : ExecRule} (hrule : rule.IsStandard) {host : Option Host} {done : Executed}
    (hhost : ∀ g ∈ host, New g) (hs : I s) (hr : rule.run c host s = .ok done) :
    I done.state ∧ ∀ g ∈ done.host, H g := by
  have hsame : ∀ g ∈ host, H g := fun g hg => k.same (hhost g hg)
  have hone {g : Host} (hg : H g) : ∀ g' ∈ some g, H g' := fun g' h => Option.some.inj h ▸ hg
  have htext := k.synthesize hn hs
  cases ExecRule.runs_of_run hrule hr with
  | bare => exact ⟨hs, hsame⟩
  | assign g => exact (k.storeText hn hs (hsame g rfl)).imp_right hone
  | init g => exact (k.runInit hn hs (hsame g rfl)).imp_right hone
  | save => exact ⟨k.saveNames hn hs, hsame⟩
  | require => exact ⟨k.runRequire hn hs, hsame⟩
  | textless => exact ⟨htext, hsame⟩
  | json _ _ hread =>
    refine ⟨htext, fun g' hg' => ?_⟩
    obtain ⟨g, hg, rfl⟩ := Option.map_eq_some_iff.1 hg'
    exact k.json (hsame g hg) _ hread
  | malformed _ _ hread => exact ⟨k.malformed htext hread, hsame⟩
  | upper g => exact ⟨htext, hone (k.upper (hhost g rfl) _ _ _)⟩
  | @attach text _ input hinput =>
    refine ⟨?_, fun g hg => nomatch hg⟩
    rw [hinput, ExecRule.attachUpper_eq]
    split <;> exact k.eval htext _ _

end

/-! ## Passes -/

theorem runUse {n m : Node} (hn : N n.content) (hs : I s) (hr : runUse n s = .ok (m, t)) : I t := by
  unfold Evomark.runUse at hr
  split at hr
  · simp at hr
  · rename_i id _
    have hlooked := k.peeks hs (((Peeks.refl s).look id).lookText id)
    simp only at hr
    split at hr
    · obtain ⟨-, rfl⟩ := Prod.mk.inj (Except.ok.inj hr)
      exact hlooked
    · obtain ⟨-, rfl⟩ := Prod.mk.inj (Except.ok.inj hr)
      exact k.undefined hlooked hn

/-- A step of the standard rules. -/
theorem runStep {n m : Node} (hname : n.kind ≠ .cmd → N n.content)
    (hnames : ∀ c ∈ n.command?, ∀ name ∈ usedNames (ExecRule.bodyItems c), N name) (hs : I s)
    (hr : runStep Registry.standard.execution n s = .ok (m, t)) : I t := by
  obtain ⟨hk, hr⟩ | ⟨rule, done, hk, hrule, hdone, -, rfl⟩ |
    ⟨command, rest, rule, done, hk, hchildren, hcmd, hrule, hdone, -, rfl⟩ := runStep_inv hr
  · exact k.runUse (hname (by rw [hk]; decide)) hs hr
  · exact (k.run (hnames n (command?_of_cmd hk)) (isStandard_of_get? hrule) (by simp) hs hdone).1
  · have hnew : ∀ g ∈ some ({ name := n.content } : Host), New g := by
      rintro g ⟨⟩
      exact k.new (hname (by rw [hk]; decide))
    obtain ⟨hstate, hhost⟩ := k.run (hnames command (command?_of_varAssign hk hchildren hcmd))
      (isStandard_of_get? hrule) hnew hs hdone
    unfold Executed.bound
    split
    · rename_i g hg
      exact k.bind hstate (hhost g hg)
    · exact hstate

/-- Where nothing is asked of names, all steps of a pass start in states with the property, and so does
what follows the pass. -/
theorem runNodes (hN : ∀ name, N name) (ns : List Node) (hs : I s) :
    (∀ x ∈ stepsOf Registry.standard.execution ns s, I x.2) ∧
      I (Evomark.runNodes Registry.standard.execution ns s).state :=
  runNodes_invariant (fun hs hr => k.runStep (fun _ => hN _) (fun _ _ _ _ => hN _) hs hr) k.next k.last ns s hs

end Kept

end Evomark
