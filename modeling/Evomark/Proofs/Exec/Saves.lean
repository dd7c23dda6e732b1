import Evomark.Proofs.Exec.Course
import Evomark.Proofs.Exec.History
import Evomark.Proofs.Exec.Mirror
/-!
# What is saved

The table of saved variables after a pass is the one before it with the writes of its steps, in order.
`stepSaves` tells the writes of a step from its command and from the state that it starts in: `save` writes,
of each variable that it names, what a look at its host finds when its turn comes, if that fits the type of
the host, and `init` the text of its body, unless its variable is bound or saved already. That a rule writes
this and nothing else is shown of `save` by induction over the names (`saved_saveNames`), of `init` case by
case (`saved_runInit`), and of a whole pass by induction over its course (`Course.saved`).
-/

namespace Evomark

open ExecRule

/-! ## Tables -/

namespace Table

variable {α : Type}

theorem union_append (table more rest : Table α) : table.union (more ++ rest) = (table.union more).union rest :=
  List.foldl_append

theorem isSome_get?_insert {table : Table α} {name : String} (h : (table.get? name).isSome = true)
    (key : String) (value : α) : ((table.insert key value).get? name).isSome = true := by
  rw [get?_insert]
  split
  · rfl
  · exact h

/-- A key that is there stays there. -/
theorem isSome_get?_union {table : Table α} {name : String} (h : (table.get? name).isSome = true)
    (more : Table α) : ((table.union more).get? name).isSome = true := by
  induction more generalizing table with
  | nil => exact h
  | cons entry rest ih => exact ih (isSome_get?_insert h entry.1 entry.2)

end Table

/-! ## The writes of a step -/

/-- What is saved of the host of a name: the value that a look at it finds, if that fits its type. -/
def ExecState.savedOf? (s : ExecState) (name : String) : Option SavedVar :=
  (s.hostOf? name).bind fun h =>
    (h.look s.cache).2.value.bind fun value =>
      if SavedVar.Fits h.type value then some ⟨h.type, value⟩ else none

/-- The state once the host of a name has been looked at. -/
def ExecState.lookName (s : ExecState) (name : String) : ExecState :=
  match s.bound? name with
  | some id => (s.look id).2
  | none => s

/-- What `save` writes of some names. Each is looked at after those before it. -/
def namesSaved : ExecState → List String → List (String × SavedVar)
  | _, [] => []
  | s, name :: rest =>
    ((s.savedOf? name).map fun saved => (name, saved)).toList ++ namesSaved (s.lookName name) rest

/-- The saved variable of a name, if its value fits its type. -/
def ExecState.usable? (s : ExecState) (name : String) : Option SavedVar :=
  (s.saved.get? name).filter fun saved => SavedVar.Fits saved.type saved.value

/-- What `init` writes in an assignment to a name: the text of its body, if there is one and the name is
not bound and not saved already. -/
def textSaved (s : ExecState) (c : Node) (name : String) : List (String × SavedVar) :=
  if (s.bound? name).isNone ∧ (s.usable? name).isNone then
    ((synthesize s (bodyItems c)).1.map fun text => (name, ⟨.str, .string text⟩)).toList
  else []

/-- The variables that a command writes from the state `s` on, if it assigns to `target`. -/
def commandSaves (s : ExecState) (c : Node) (target : Option String) : List (String × SavedVar) :=
  if c.content = "save" then namesSaved s (usedNames (bodyItems c))
  else if c.content = "init" then target.toList.flatMap (textSaved s c)
  else []

/-- The variables that a step writes, in order. -/
def stepSaves (step : Node × ExecState) : List (String × SavedVar) :=
  match step.1.command? with
  | some c => commandSaves step.2 c (if step.1.kind = .varAssign then some step.1.content else none)
  | none => []

/-! ## States with the same hosts -/

/-- The states have the same hosts under the same names, and the same cache. -/
structure SameHosts (s t : ExecState) : Prop where
  cache : t.cache = s.cache
  hosts : t.hosts = s.hosts
  bindings : t.bindings = s.bindings

/-- Where hosts are the same, looks are. -/
theorem mirrors_sameHosts : Mirrors (fun _ => True) SameHosts where
  before _ _ := trivial
  beforeFatal _ := trivial
  bound? h name := by rw [ExecState.bound?, h.bindings, ExecState.bound?]
  type h id := by rw [ExecState.host?, h.hosts, ExecState.host?]
  look {s t} h id _ := by
    have hhost : t.host? id = s.host? id := by rw [ExecState.host?, h.hosts, ExecState.host?]
    unfold ExecState.look
    rw [hhost, h.cache, h.hosts]
    cases s.host? id with
    | none => exact ⟨⟨rfl, h⟩, by simp only [ExecState.isDefined, hhost]⟩
    | some g => exact ⟨⟨rfl, rfl, rfl, h.bindings⟩, rfl⟩
  warn h _ := ⟨h.cache, h.hosts, h.bindings⟩
  fatal h _ := ⟨h.cache, h.hosts, h.bindings⟩

theorem SameHosts.savedOf? {s t : ExecState} (h : SameHosts s t) (name : String) :
    t.savedOf? name = s.savedOf? name := by
  unfold ExecState.savedOf? ExecState.hostOf? ExecState.bound? ExecState.host?
  rw [h.cache, h.hosts, h.bindings]

theorem SameHosts.lookName {s t : ExecState} (h : SameHosts s t) (name : String) :
    SameHosts (s.lookName name) (t.lookName name) := by
  unfold ExecState.lookName
  rw [mirrors_sameHosts.bound? h name]
  cases s.bound? name with
  | none => exact h
  | some id => exact (mirrors_sameHosts.look h id trivial).1.2

/-- What is written of names depends on hosts and the cache. -/
theorem SameHosts.namesSaved (names : List String) {s t : ExecState} (h : SameHosts s t) :
    namesSaved t names = namesSaved s names := by
  induction names generalizing s t with
  | nil => rfl
  | cons name rest ih => rw [Evomark.namesSaved, Evomark.namesSaved, h.savedOf?, ih (h.lookName name)]

theorem sameHosts_store (s : ExecState) (name : String) (type : DataType) (value : Option Json) :
    SameHosts s (s.store name type value) := by
  unfold ExecState.store
  repeat' split
  all_goals exact ⟨rfl, rfl, rfl⟩

/-- Saving a name looks at its host, and does nothing else to hosts. -/
theorem sameHosts_saveName (s : ExecState) (name : String) : SameHosts (s.lookName name) (saveName s name) := by
  unfold ExecState.lookName saveName
  cases s.bound? name with
  | none => exact ⟨rfl, rfl, rfl⟩
  | some id =>
    simp only
    unfold ExecState.saveBound
    simp only
    split
    · exact ⟨rfl, rfl, rfl⟩
    · exact sameHosts_store _ _ _ _

/-! ## `save` -/

/-- What is put into the table of saved variables. -/
theorem saved_store (s : ExecState) (name : String) (type : DataType) (value : Option Json) :
    (s.store name type value).saved = s.saved.union ((value.bind fun value =>
      if SavedVar.Fits type value then some (name, ⟨type, value⟩) else none).toList) := by
  unfold ExecState.store SavedVar.encode
  cases value with
  | none => rfl
  | some value =>
    simp only [Option.bind_some]
    cases SavedVar.Fits type value <;> rfl

theorem saved_look (s : ExecState) (id : Nat) : (s.look id).2.saved = s.saved :=
  ((Looks.refl s).look id).saved

/-- One name is saved with what a look at its host finds. -/
theorem saved_saveName {s : ExecState} (hs : s.Linked) (name : String) :
    (saveName s name).saved =
      s.saved.union ((s.savedOf? name).map fun saved => (name, saved)).toList := by
  unfold saveName ExecState.savedOf? ExecState.hostOf?
  cases hb : s.bound? name with
  | none => rfl
  | some id =>
    obtain ⟨g, hg, rfl⟩ := hs.named hb
    have hlooked : (s.look id).2.host? id = some (g.look s.cache).1 := by
      rw [ExecState.host?_look, if_pos rfl, hg]
      rfl
    have hvalue : (s.look id).1 = (g.look s.cache).2.value := congrArg Prod.fst (ExecState.look_of_host? hg)
    have hstate : s.saveBound id = (s.look id).2.store g.name g.type (g.look s.cache).2.value := by
      unfold ExecState.saveBound
      simp only [hlooked, hvalue, Host.type_look, Host.name_look]
    simp only [hstate, saved_store, saved_look, Option.bind_some, hg]
    cases (g.look s.cache).2.value with
    | none => rfl
    | some value =>
      simp only [Option.bind_some]
      cases SavedVar.Fits g.type value <;> rfl

/-- `save` writes the names in order. -/
theorem saved_saveNames (names : List String) {s : ExecState} (hs : s.Linked) :
    (names.foldl saveName s).saved = s.saved.union (namesSaved s names) := by
  induction names generalizing s with
  | nil => rfl
  | cons name rest ih =>
    have hacts : Acts s (saveName s name) := Acts.refl.saveNames [name]
    have hsteady := hacts.steady
    have hlinked := hs.onward ((ExecState.Onward.refl s).acts hacts) hsteady.bindings (hsteady.sound hs.sound)
    rw [List.foldl_cons, ih hlinked, (sameHosts_saveName s name).namesSaved rest, saved_saveName hs name,
      namesSaved, Table.union_append]

/-! ## `init` -/

/-- Warnings do not change the text of a body. -/
theorem synthesize_warn (s : ExecState) (message : String) (items : List Node) :
    (synthesize (s.warn message) items).1 = (synthesize s items).1 := by
  have hsame : SameHosts s (s.warn message) := ⟨rfl, rfl, rfl⟩
  exact (mirrors_sameHosts.synthesize items hsame trivial).1

theorem saved_initText (c : Node) (g : Host) (s : ExecState) :
    (initText c g s).2.saved =
      s.saved.union ((synthesize s (bodyItems c)).1.map fun text => (g.name, ⟨.str, .string text⟩)).toList := by
  have hstored := ((Looks.refl s).storeText c g).saved
  cases ht : (synthesize s (bodyItems c)).1 with
  | none =>
    rw [initText_of_none ht, hstored]
    rfl
  | some text =>
    rw [initText_of_some ht, hstored]
    rfl

/-- `init` in an assignment writes the text of its body, if the variable is not bound or saved. -/
theorem saved_runInit (c : Node) (g : Host) (s : ExecState) :
    (runInit c g s).2.saved = s.saved.union (textSaved s c g.name) := by
  unfold runInit textSaved ExecState.usable?
  cases hb : s.bound? g.name with
  | some id => simp [saved_look, Table.union]
  | none =>
    cases hs : s.saved.get? g.name with
    | none =>
      simp only [Option.isNone_none, Option.filter_none, and_self, if_true]
      exact saved_initText c g s
    | some saved =>
      cases hf : SavedVar.Fits saved.type saved.value with
      | true => simp [SavedVar.decode, hf, Table.union]
      | false =>
        have htext := saved_initText c g (s.warn (SavedVarError.message ⟨g.name, saved.type⟩))
        rw [synthesize_warn, show (s.warn _).saved = s.saved from rfl] at htext
        simpa [SavedVar.decode, hf] using htext

/-! ## Steps and passes -/

/-- Rules other than these two write nothing. -/
theorem saved_run_of_ne {rule : ExecRule} (hrule : rule.IsStandard) (hsave : rule ≠ .save) (hinit : rule ≠ .init)
    {c : Node} {host : Option Host} {s : ExecState} {done : Executed} (hr : rule.run c host s = .ok done) :
    done.state.saved = s.saved := by
  have hs := ((Looks.refl s).synthesize (bodyItems c)).saved
  cases runs_of_run hrule hr with
  | bare => rfl
  | assign g => exact ((Looks.refl s).storeText c g).saved
  | init g => exact absurd rfl hinit
  | save => exact absurd rfl hsave
  | require =>
    obtain hlooks | ⟨t, message, hlooks, hfatal⟩ := Looks.runRequire s (usedNames (bodyItems c))
    · exact hlooks.saved
    · show (runRequire s (usedNames (bodyItems c))).saved = s.saved
      rw [hfatal]
      exact hlooks.saved
  | textless | json | upper => exact hs
  | malformed => exact hs
  | attach =>
    unfold attachUpper
    simp only
    split <;> exact hs

/-- A standard rule writes what its command is to write. -/
theorem saved_run {c : Node} {rule : ExecRule} (hrule : Registry.standard.execution.get? c.content = some rule)
    {host : Option Host} {s : ExecState} {done : Executed} (hs : s.Linked) (hr : rule.run c host s = .ok done) :
    done.state.saved = s.saved.union (commandSaves s c (host.map (·.name))) := by
  have hnothing (hsave : rule ≠ .save) (hinit : rule ≠ .init) (hname : c.content ≠ "save" ∧ c.content ≠ "init") :
      done.state.saved = s.saved.union (commandSaves s c (host.map (·.name))) := by
    rw [saved_run_of_ne (isStandard_of_get? hrule) hsave hinit hr, commandSaves, if_neg hname.1, if_neg hname.2]
    rfl
  obtain ⟨hname, rfl⟩ | ⟨hname, rfl⟩ | ⟨hname, rfl⟩ | ⟨hname, rfl⟩ | ⟨hname, rfl⟩ | ⟨hname, rfl⟩ :=
    standard_of_get? hrule
  case inl =>
    obtain rfl | ⟨g, rfl⟩ : host = none ∨ ∃ g, host = some g := by cases host <;> simp
    · obtain rfl := Except.ok.inj hr
      simp [commandSaves, hname, Table.union]
    · obtain rfl := Except.ok.inj hr
      have hcommand : commandSaves s c (some g.name) = textSaved s c g.name := by simp [commandSaves, hname]
      show (runInit c g s).2.saved = s.saved.union (commandSaves s c (some g.name))
      rw [hcommand]
      exact saved_runInit c g s
  case inr.inr.inr.inl =>
    obtain rfl := Except.ok.inj hr
    rw [commandSaves, if_pos hname]
    exact saved_saveNames _ hs
  all_goals
    refine hnothing (by simp) (by simp) ?_
    rw [hname]
    decide

/-- A step writes what its command is to write. -/
theorem saved_runStep {n m : Node} {s t : ExecState} (hs : s.Linked)
    (hr : runStep Registry.standard.execution n s = .ok (m, t)) : t.saved = s.saved.union (stepSaves (n, s)) := by
  unfold stepSaves
  simp only
  obtain ⟨hk, hr⟩ | ⟨rule, done, hk, hrule, hdone, -, rfl⟩ |
    ⟨command, rest, rule, done, hk, hchildren, hcmd, hrule, hdone, -, rfl⟩ := runStep_inv hr
  · rw [command?_of_varUse hk, (Looks.runUse hr).saved]
    rfl
  · rw [command?_of_cmd hk, saved_run hrule hs hdone]
    simp [hk]
  · have hbound : done.bound.saved = done.state.saved := by
      unfold Executed.bound
      split <;> rfl
    rw [command?_of_varAssign hk hchildren hcmd, hbound, saved_run hrule hs hdone]
    simp [hk]

/-- A step that fails has nothing to write: it runs no standard rule. -/
theorem stepSaves_of_error {n : Node} {s : ExecState} {e : ExecError}
    (hr : runStep Registry.standard.execution n s = .error e) : stepSaves (n, s) = [] := by
  unfold stepSaves
  simp only
  cases hc : n.command? with
  | none => rfl
  | some c =>
    -- a standard rule would not have failed
    have hnone : Registry.standard.execution.get? c.content = none := by
      by_contra hsome
      obtain ⟨rule, hrule⟩ := Option.ne_none_iff_exists'.1 hsome
      have hruns (host : Option Host) := run_standard (isStandard_of_get? hrule) c host s
      obtain ⟨hk, rfl⟩ | ⟨hk, rest, hchildren, hcmd⟩ := command?_cases hc
      · obtain ⟨done, hdone, -⟩ := hruns none
        simp [runStep, hk, hrule, hdone, Bind.bind, Except.bind, Pure.pure, Except.pure] at hr
      · obtain ⟨done, hdone, -⟩ := hruns (some { name := n.content })
        rw [runStep, hk] at hr
        cases (runAssignment_ok hchildren hcmd hrule hdone).symm.trans hr
    have hname (name : String) (h : (Registry.standard.execution.get? name).isSome = true) :
        c.content ≠ name := by
      rintro rfl
      rw [hnone] at h
      cases h
    simp only [commandSaves, if_neg (hname "save" rfl), if_neg (hname "init" rfl)]

/-- A course writes what its steps are to write. -/
theorem Course.saved {s u : ExecState} {o : Outcome} {steps : List (Node × ExecState)}
    (h : Course Registry.standard.execution s steps o u) (hs : s.Linked) :
    u.saved = s.saved.union (steps.flatMap stepSaves) := by
  induction h with
  | completed => rfl
  | failed hr =>
    rw [List.flatMap_singleton, stepSaves_of_error hr]
    rfl
  | halted hr =>
    have hstep := saved_runStep hs hr
    rw [List.flatMap_singleton]
    exact hstep
  | step hr _ _ ih =>
    rw [List.flatMap_cons, Table.union_append, ← saved_runStep hs hr]
    exact ih (hs.runStep hr).next

/-- `init` takes over a variable that is saved, whatever its body holds. -/
theorem runStep_of_usable {n command : Node} {s : ExecState} {saved : SavedVar} (hn : n.kind = .varAssign)
    (hc : n.command? = some command) (hinit : command.content = "init") (hb : s.bound? n.content = none)
    (hs : s.usable? n.content = some saved) :
    ∃ t g, runStep Registry.standard.execution n s = .ok (n, t) ∧ t.hostOf? n.content = some g ∧
      g.type = saved.type ∧ g.content = .frozen (some saved.value) := by
  obtain ⟨label, children⟩ := n
  obtain ⟨hget, hfits⟩ := Option.filter_eq_some_iff.1 hs
  obtain ⟨hcmd, -⟩ | ⟨-, rest, hchildren, hcmd⟩ := command?_cases hc
  · rw [hn] at hcmd
    cases hcmd
  obtain rfl : children = command :: rest := hchildren
  let g : Host := ({ name := label.content, type := saved.type } : Host).setContent (some saved.value)
  have hrule : Registry.standard.execution.get? command.content = some .init := by
    rw [hinit]
    rfl
  have hrun : ExecRule.init.run command (some { name := label.content }) s = .ok ⟨command, some g, s⟩ := by
    have hinit := runInit_of_saved (c := command) (g := { name := label.content }) hb hget hfits
    simp only [run, hinit, g]
  have hstep : runAssignment Registry.standard.execution ⟨label, command :: rest⟩ s =
      .ok (⟨label, command :: rest⟩, s.bind g) :=
    runAssignment_ok (n := ⟨label, command :: rest⟩) rfl hcmd hrule hrun
  refine ⟨s.bind g, g, ?_, ?_, rfl, rfl⟩
  · rw [runStep, hn]
    exact hstep
  · have hbound : (s.bind g).bound? label.content = some s.hosts.length :=
      (s.bound?_bind g label.content).trans (if_pos rfl)
    rw [ExecState.hostOf?, show (Node.mk label (command :: rest)).content = label.content from rfl, hbound]
    exact s.host?_bind g

/-- Whatever passes came before: the saved variables after a pass are those before it, updated in order by
what the executed commands write (`stepSaves`). So none is ever removed; and an `init` that takes over a saved
variable binds it with the type and the value saved, whatever its body holds. -/
theorem exec_saves (source : String) (passes : List Context) (ctx : Context) :
    let rules := Registry.standard.execution
    let document := (Registry.standard.parse source).document
    let left := afterPasses rules document passes
    let last := exec rules left ctx
    let steps := stepsOf rules left.children (.ofContext ctx)
    last.state.saved = (steps.flatMap stepSaves).foldl
        (fun table (name, saved) => table.insert name saved) ctx.saved ∧
      (∀ name, (ctx.saved.get? name).isSome = true → (last.state.saved.get? name).isSome = true) ∧
      ∀ n s command saved, (n, s) ∈ steps → n.kind = .varAssign → n.command? = some command →
        command.content = "init" → s.bound? n.content = none → s.usable? n.content = some saved →
        ∃ t g, runStep rules n s = .ok (n, t) ∧ t.hostOf? n.content = some g ∧
          g.type = saved.type ∧ g.content = .frozen (some saved.value) := by
  intro rules document left last steps
  have hcourse := course_runNodes rules left.children (.ofContext ctx)
  have hsaved := hcourse.saved (.ofContext ctx)
  obtain ⟨label, children⟩ := left
  refine ⟨hsaved, fun name hname => ?_, fun n s command saved _ hn hc hinit hb hs => ?_⟩
  · rw [show last.state.saved = _ from hsaved]
    exact Table.isSome_get?_union hname _
  · exact runStep_of_usable hn hc hinit hb hs

/-- A value that is still to be computed is computed and saved. -/
example :
    let s := (ExecState.ofContext {}).bind (Host.setDeferred { name := "x" } ⟨.string "abc", none, .uppercase⟩)
    namesSaved s ["y", "x"] = [("x", ⟨.str, .string "ABC"⟩)] := by
  rfl

end Evomark
