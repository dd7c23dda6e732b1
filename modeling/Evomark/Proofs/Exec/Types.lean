import Evomark.Proofs.Exec.Grows
import Evomark.Proofs.Exec.Kept
import Evomark.Proofs.Json.Value
/-!
# Values fit their types

The type of a variable and its value are set by different rules at different times: `init` copies both,
`json` sets them together, and `upper` sets the type at once and leaves the value to the cache. Still
they fit. `ExecState.Typed` says of a state that its saved variables and its hosts hold values of their
types, that only texts are cached, and that no warning says otherwise. Every step of the standard rules
keeps it (`ExecState.Typed.runStep`), so it holds throughout any sequence of passes that starts from
tables for which it holds (`exec_respectsTypes`).
-/

namespace Evomark

/-- The value is a text. -/
def Json.IsText (value : Json) : Prop := ∃ text, value = .string text

/-- The saved variables hold values of their types, and texts are cached. -/
structure Context.Typed (ctx : Context) : Prop where
  saved : ctx.Fit
  cache : ∀ hash value, ctx.cache.get? hash = some value → value.IsText

/-- The content of a host is a value of its type. If it is deferred, it will be a text. -/
structure Host.Typed (h : Host) : Prop where
  content : ∀ value, h.content = .frozen (some value) → SavedVar.Fits h.type value = true
  deferred : ∀ d, h.deferred = some d → d.evaluator = .uppercaseText

/-- The tables and the hosts of a state are typed, and no warning says that a saved variable is not. -/
structure ExecState.Typed (s : ExecState) : Prop where
  context : s.context.Typed
  hosts : ∀ h ∈ s.hosts, h.Typed
  warnings : ∀ e : SavedVarError, e.message ∉ s.warnings

/-- What the types of a state promise to those who look at it. -/
structure ExecState.RespectsTypes (s : ExecState) : Prop where
  /-- A host that is a text has a text or nothing. -/
  texts : ∀ id h, s.host? id = some h → h.type = .str → ∀ value ∈ (s.look id).1, value.IsText
  /-- A saved variable can be taken out again. -/
  saved : ∀ name saved, s.saved.get? name = some saved → saved.decode name = .ok saved.value
  cache : ∀ hash value, s.cache.get? hash = some value → value.IsText
  warnings : ∀ e : SavedVarError, e.message ∉ s.warnings

/-! ## Values and warnings -/

theorem fits_of_isText {value : Json} (h : value.IsText) (type : DataType) : SavedVar.Fits type value = true := by
  obtain ⟨text, rfl⟩ := h
  cases type <;> rfl

theorem isText_of_fits {value : Json} (h : SavedVar.Fits .str value = true) : value.IsText := by
  cases value with
  | string text => exact ⟨text, rfl⟩
  | _ => simp [SavedVar.Fits] at h

theorem take_append_toList {k : Nat} {before : String} (h : k ≤ before.toList.length) (after : String) :
    (before ++ after).toList.take k = before.toList.take k := by
  rw [String.toList_append, List.take_append_of_le_length h]

/-- A warning with another beginning does not say that a saved variable does not fit. -/
theorem ne_savedVarError {m : String} (h : m.toList.take 5 ≠ "Saved".toList) (e : SavedVarError) :
    e.message ≠ m := by
  intro he
  subst he
  unfold SavedVarError.message at h
  generalize e.expected.name = type at h
  rw [String.append_assoc, String.append_assoc, String.append_assoc, take_append_toList (by decide)] at h
  exact h (by decide)

theorem ne_undefinedWarning (name : String) (e : SavedVarError) :
    e.message ≠ ExecState.undefinedWarning name := by
  refine ne_savedVarError ?_ e
  rw [ExecState.undefinedWarning, String.append_assoc, take_append_toList (by decide)]
  decide

/-! ## Hosts -/

namespace Host.Typed

variable {h : Host}

theorem setContent (hd : ∀ d, h.deferred = some d → d.evaluator = .uppercaseText) {value : Option Json}
    (hv : ∀ v ∈ value, SavedVar.Fits h.type v = true) : (h.setContent value).Typed :=
  ⟨fun v hc => hv v (Content.frozen.inj hc), hd⟩

end Host.Typed

/-- Nothing has been put into the host yet. -/
structure Host.Fresh (h : Host) : Prop where
  content : h.content = .unset
  deferred : h.deferred = none

theorem Host.Fresh.typed {h : Host} (hh : h.Fresh) : h.Typed :=
  ⟨fun _ hc => by simp [hh.content] at hc, fun _ hd => by simp [hh.deferred] at hd⟩

/-- Out of a cache of texts comes a text, and a text goes into it. -/
theorem Deferred.isText_eval {d : Deferred} (hd : d.evaluator = .uppercaseText) {cache : Table Json}
    (hc : ∀ hash value, cache.get? hash = some value → value.IsText) :
    (∀ hash value, (d.eval cache).cache.get? hash = some value → value.IsText) ∧
      ∀ v ∈ (d.eval cache).value, v.IsText := by
  have hvalue : ∀ v ∈ d.evaluator.apply d.input, v.IsText := by
    intro v hv
    rw [hd] at hv
    obtain ⟨text, -, rfl⟩ := Option.map_eq_some_iff.1 hv
    exact ⟨_, rfl⟩
  unfold eval
  split
  · rename_i value hget
    obtain ⟨hash, -, hget⟩ := Option.bind_eq_some_iff.1 hget
    exact ⟨hc, fun v hv => Option.some.inj hv ▸ hc _ _ hget⟩
  · simp only
    split
    · exact ⟨hc, by simp⟩
    · rename_i value happly
      have htext := hvalue value happly
      split
      · refine ⟨fun hash v hget => ?_, fun v hv => Option.some.inj hv ▸ htext⟩
        rw [Table.get?_insert] at hget
        split at hget
        · exact Option.some.inj hget ▸ htext
        · exact hc hash v hget
      · exact ⟨hc, fun v hv => Option.some.inj hv ▸ htext⟩

/-- A look at a host finds a value of its type, and keeps the type. -/
theorem Host.Typed.look {h : Host} (hh : h.Typed) {cache : Table Json}
    (hc : ∀ hash value, cache.get? hash = some value → value.IsText) :
    ((h.look cache).1.Typed ∧ (h.look cache).1.type = h.type) ∧
      (∀ hash value, (h.look cache).2.cache.get? hash = some value → value.IsText) ∧
      ∀ v ∈ (h.look cache).2.value, SavedVar.Fits h.type v = true := by
  unfold Host.look
  split
  · rename_i value hcontent
    refine ⟨⟨hh, rfl⟩, hc, fun v hv => hh.content v ?_⟩
    rw [hcontent, show value = some v from hv]
  · split
    · exact ⟨⟨hh, rfl⟩, hc, by simp⟩
    · rename_i d hd
      obtain ⟨hcache, hvalue⟩ := d.isText_eval (hh.deferred d hd) hc
      have hfits : ∀ v ∈ (d.eval cache).value, SavedVar.Fits h.type v = true :=
        fun v hv => fits_of_isText (hvalue v hv) h.type
      exact ⟨⟨.setContent hh.deferred hfits, rfl⟩, hcache, hfits⟩

/-! ## States -/

namespace ExecState.Typed

variable {s t : ExecState}

theorem ofContext {ctx : Context} (h : ctx.Typed) : (ExecState.ofContext ctx).Typed :=
  ⟨h, fun _ hh => absurd hh List.not_mem_nil, fun _ => List.not_mem_nil⟩

theorem next (h : s.Typed) : s.next.Typed := ⟨h.context, h.hosts, fun _ => List.not_mem_nil⟩

theorem last (h : s.Typed) : s.last.Typed := ⟨h.context, h.hosts, fun _ => List.not_mem_nil⟩

theorem warn (h : s.Typed) {m : String} (hm : ∀ e : SavedVarError, e.message ≠ m) : (s.warn m).Typed := by
  refine ⟨h.context, h.hosts, fun e he => ?_⟩
  rcases List.mem_append.1 he with he | he
  · exact h.warnings e he
  · exact hm e (List.mem_singleton.1 he)

theorem fatal (h : s.Typed) {m : String} (hm : ∀ e : SavedVarError, e.message ≠ m) : (s.fatal m).Typed :=
  ⟨(h.warn hm).context, (h.warn hm).hosts, (h.warn hm).warnings⟩

theorem bind (h : s.Typed) {g : Host} (hg : g.Typed) : (s.bind g).Typed :=
  ⟨h.context, List.forall_mem_append.2 ⟨h.hosts, by simpa using hg⟩, h.warnings⟩

theorem noteLookup (h : s.Typed) {found : Lookup}
    (hc : ∀ hash value, found.cache.get? hash = some value → value.IsText) : (s.noteLookup found).Typed :=
  ⟨⟨h.context.saved, hc⟩, h.hosts, h.warnings⟩

theorem cache (h : s.Typed) : ∀ hash value, s.cache.get? hash = some value → value.IsText := h.context.cache

theorem of_host? (h : s.Typed) {id : Nat} {g : Host} (hg : s.host? id = some g) : g.Typed :=
  h.hosts g (List.mem_of_getElem? hg)

theorem look (h : s.Typed) (id : Nat) : (s.look id).2.Typed := by
  unfold ExecState.look
  split
  · exact h
  · rename_i g hg
    obtain ⟨⟨hlooked, -⟩, hcache, -⟩ := (h.of_host? hg).look h.cache
    refine ⟨⟨h.context.saved, hcache⟩, fun g' hg' => ?_, h.warnings⟩
    rcases List.mem_or_eq_of_mem_set hg' with hg' | rfl
    · exact h.hosts g' hg'
    · exact hlooked

/-- What a look at a place finds is a value of the type of the host there. -/
theorem fits_look (h : s.Typed) {id : Nat} {g : Host} (hg : s.host? id = some g) :
    ∀ v ∈ (s.look id).1, SavedVar.Fits g.type v = true := by
  intro v hv
  rw [ExecState.look, hg] at hv
  exact ((h.of_host? hg).look h.cache).2.2 v hv

/-- A value of the type is saved, and nothing is said against it. -/
theorem store (h : s.Typed) (name : String) {type : DataType} {value : Option Json}
    (hv : ∀ v ∈ value, SavedVar.Fits type v = true) : (s.store name type value).Typed := by
  unfold ExecState.store
  split
  · exact h.warn (ne_savedVarError (by decide))
  · rename_i v
    rw [SavedVar.encode, if_pos (hv v rfl)]
    refine ⟨⟨fun key saved hget => ?_, h.cache⟩, h.hosts, h.warnings⟩
    rw [show (ExecState.context _).saved = s.saved.insert name ⟨type, v⟩ from rfl, Table.get?_insert] at hget
    split at hget
    · exact Option.some.inj hget ▸ hv v rfl
    · exact h.context.saved key saved hget

theorem saveBound (h : s.Typed) (id : Nat) : (s.saveBound id).Typed := by
  unfold ExecState.saveBound
  simp only
  split
  · exact h.look id
  · rename_i g hg
    refine (h.look id).store _ fun v hv => ?_
    rw [ExecState.look] at hv hg
    split at hv
    · cases hv
    · rename_i g' hg'
      obtain ⟨⟨-, htype⟩, -, hvalue⟩ := (h.of_host? hg').look h.cache
      rw [hg'] at hg
      have hid : id < s.hosts.length := (List.getElem?_eq_some_iff.1 hg').1
      have hset := (s.host?_set id (g'.look s.cache).1 id hid).symm.trans hg
      rw [if_pos rfl] at hset
      rw [← Option.some.inj hset, htype]
      exact hvalue v hv

theorem saveHost (h : s.Typed) {g : Host} (hg : g.Typed) :
    (s.saveHost g).2.Typed ∧ (s.saveHost g).1.Typed := by
  obtain ⟨⟨hlooked, htype⟩, hcache, hvalue⟩ := hg.look h.cache
  refine ⟨(h.noteLookup hcache).store _ fun v hv => ?_, hlooked⟩
  show SavedVar.Fits (g.look s.cache).1.type v = true
  rw [htype]
  exact hvalue v hv

/-! ## Steps -/

/-- Type and value of a host come from the same place: a host, a saved variable, a text, or JSON. -/
theorem kept : Kept (fun _ => True) ExecState.Typed Host.Fresh Host.Typed where
  new _ := ⟨rfl, rfl⟩
  same hg := hg.typed
  look hs id := hs.look id
  undefined {_ name} hs _ := hs.warn (ne_undefinedWarning name)
  waiting hs _ _ := by
    refine hs.fatal (ne_savedVarError ?_)
    rw [take_append_toList (by decide)]
    decide
  malformed hs _ := by
    refine hs.warn (ne_savedVarError ?_)
    rw [take_append_toList (by decide)]
    decide
  refused hs _ hsaved hdecode := by
    rw [SavedVar.decode, if_pos (hs.context.saved _ _ hsaved)] at hdecode
    cases hdecode
  saveBound hs id := hs.saveBound id
  saveHost hs hg := hs.saveHost hg
  eval hs text position := hs.noteLookup (Deferred.isText_eval (d := upperDeferred text position) rfl hs.cache).1
  text hg dependencies text := by
    refine Host.Typed.setContent ?_ fun v hv => ?_
    · exact hg.deferred
    · obtain ⟨text, -, rfl⟩ := Option.map_eq_some_iff.1 hv
      exact fits_of_isText ⟨text, rfl⟩ _
  bound {s g} hs hg id := by
    refine Host.Typed.setContent ?_ fun v hv => ?_
    · exact hg.deferred
    · cases hb : s.host? id with
      | none =>
        rw [ExecState.look, hb] at hv
        cases hv
      | some bound => exact hs.fits_look hb v hv
  saved hs hg hsaved hdecode := by
    have hfits := hs.context.saved _ _ hsaved
    rw [SavedVar.decode, if_pos hfits] at hdecode
    obtain rfl := Except.ok.inj hdecode
    refine Host.Typed.setContent ?_ fun v hv => Option.some.inj hv ▸ hfits
    exact hg.deferred
  json hg dependencies _ := by
    refine Host.Typed.setContent ?_ fun _ _ => rfl
    exact hg.deferred
  -- The host is as new: there is no content yet that the type could be wrong for.
  upper hg dependencies text position :=
    ⟨fun _ hc => Content.noConfusion (hg.content.symm.trans hc), fun _ hd => Option.some.inj hd ▸ rfl⟩
  bind hs hg := hs.bind hg
  next hs := hs.next
  last hs := hs.last

/-- One step keeps values and types together. -/
theorem runStep {n m : Node} (h : s.Typed)
    (hr : runStep Registry.standard.execution n s = .ok (m, t)) : t.Typed :=
  kept.runStep (fun _ => trivial) (fun _ _ _ _ => trivial) h hr

theorem respectsTypes (h : s.Typed) : s.RespectsTypes where
  texts _ _ hg htype v hv := isText_of_fits (htype ▸ h.fits_look hg v hv)
  saved name saved hget := by rw [SavedVar.decode, if_pos (h.context.saved name saved hget)]
  cache := h.cache
  warnings := h.warnings

end ExecState.Typed

/-! ## Passes -/

/-- Throughout a pass over typed tables the state is typed, and at its end the tables are again. -/
theorem typed_exec (document : Node) {ctx : Context} (h : ctx.Typed) :
    let last := exec Registry.standard.execution document ctx
    (∀ step ∈ stepsOf Registry.standard.execution document.children (.ofContext ctx), step.2.Typed) ∧
      last.state.Typed := by
  obtain ⟨label, children⟩ := document
  exact ExecState.Typed.kept.runNodes (fun _ => trivial) children (.ofContext h)

/-- The tables that passes over these documents, one after the other, leave of a context. -/
def contextAfterPasses (rules : Table ExecRule) (documents : List Node) (ctx : Context) : Context :=
  documents.foldl (fun ctx document => (exec rules document ctx).state.context) ctx

theorem typed_contextAfterPasses (documents : List Node) {ctx : Context} (h : ctx.Typed) :
    (contextAfterPasses Registry.standard.execution documents ctx).Typed := by
  induction documents generalizing ctx with
  | nil => exact h
  | cons document rest ih => exact ih (typed_exec document h).2.context

/-- Values respect their types at every point of a pass, before and behind each step, however many passes
came before it. -/
theorem exec_respectsTypes (documents : List Node) (document : Node) (ctx : Context) (h : ctx.Typed) :
    let rules := Registry.standard.execution
    let start := contextAfterPasses rules documents ctx
    let last := exec rules document start
    (∀ step ∈ stepsOf rules document.children (.ofContext start), step.2.RespectsTypes ∧
      ∀ n t, runStep rules step.1 step.2 = .ok (n, t) → t.RespectsTypes) ∧
    last.state.RespectsTypes ∧ last.state.context.Typed := by
  intro rules start last
  obtain ⟨hsteps, hlast⟩ := typed_exec document (typed_contextAfterPasses documents h)
  refine ⟨fun step hstep => ?_, hlast.respectsTypes, hlast.context⟩
  exact ⟨(hsteps step hstep).respectsTypes, fun n t hr => ((hsteps step hstep).runStep hr).respectsTypes⟩

theorem exec_respectsTypes_init :
    let rules := Registry.standard.execution
    let document := (Registry.standard.parse "%x = $init\x7bno\x7d\n$upper\x7b%x\x7d").document
    let ctx : Context := ⟨[("hash", .string "HI")], [("x", ⟨.str, .string "hi"⟩), ("y", ⟨.obj, .null⟩)]⟩
    ctx.Typed ∧ (exec rules document (contextAfterPasses rules [document] ctx)).state.RespectsTypes := by
  intro rules document ctx
  have hctx : ctx.Typed := by
    refine ⟨fun name saved hget => ?_, fun hash value hget => ?_⟩
    · simp only [ctx, Table.get?] at hget
      split at hget
      · exact Option.some.inj hget ▸ rfl
      · split at hget
        · exact Option.some.inj hget ▸ rfl
        · cases hget
    · simp only [ctx, Table.get?] at hget
      split at hget
      · exact Option.some.inj hget ▸ ⟨"HI", rfl⟩
      · cases hget
  exact ⟨hctx, (exec_respectsTypes [document] document ctx hctx).2.1⟩

end Evomark
