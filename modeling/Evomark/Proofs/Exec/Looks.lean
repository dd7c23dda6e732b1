import Evomark.Proofs.Exec.Acts
import Evomark.Proofs.Exec.Message
/-!
# What looks at hosts keep

Of a host as the standard rules make them a look tells the same at any time (`Host.Sound`), since what
`upper` defers can always be computed. So looks and warnings change nothing that rules would notice
later, and they are all that most rules do to a state.

* `Steady s t`: from `s` to `t` no host was bound, no position counted and no pass ended, and every
  host has a value exactly if it had one;
* `ExecRule.steady_run`: this is what a standard rule does, unless it ends the pass;
* `acts_runStep`: all that a step does to a state;
* `ExecState.Lacks`: a name without a value, which `require` waits for (`runRequire_cases`).
-/

namespace Evomark

/-! ## What comes out of a look -/

/-- A content that is cached and that can always be computed. -/
structure Deferred.Sure (d : Deferred) : Prop where
  cached : d.hash.isSome = true
  computed : (d.evaluator.apply d.input).isSome = true

/-- What `upper` defers. -/
theorem sure_upper (text : String) (position : Nat) : (upperDeferred text position).Sure :=
  ⟨rfl, by simp [upperDeferred, Evaluator.apply, ExecRule.upperInput, Json.field?, Table.get?, Json.string?]⟩

/-- What is cached is not computed. -/
theorem Deferred.eval_of_cached {d : Deferred} {cache : Table Json} {key : String} {value : Json}
    (hd : d.hash = some key) (h : cache.get? key = some value) : d.eval cache = ⟨some value, cache, []⟩ := by
  unfold eval
  rw [hd, Option.bind_some, h]

/-- What is in the cache stays there. -/
theorem Deferred.get?_eval {d : Deferred} {cache : Table Json} {key : String} {value : Json}
    (h : cache.get? key = some value) : (d.eval cache).cache.get? key = some value := by
  unfold eval
  split
  · exact h
  · rename_i hmiss
    simp only
    split
    · exact h
    · split
      · rename_i hash hd
        have hne : hash ≠ key := by
          rintro rfl
          simp [hd, h] at hmiss
        rw [Table.get?_insert, if_neg hne]
        exact h
      · exact h

/-- A value comes out, and it is in the cache then. -/
theorem Deferred.Sure.eval {d : Deferred} (h : d.Sure) (cache : Table Json) :
    ∃ key value, d.hash = some key ∧ (d.eval cache).value = some value ∧
      (d.eval cache).cache.get? key = some value := by
  obtain ⟨key, hkey⟩ := Option.isSome_iff_exists.1 h.cached
  obtain ⟨computed, hcomputed⟩ := Option.isSome_iff_exists.1 h.computed
  unfold Deferred.eval
  simp only [hkey, Option.bind_some, hcomputed]
  cases hget : cache.get? key with
  | some value => exact ⟨key, value, rfl, rfl, hget⟩
  | none => exact ⟨key, computed, rfl, rfl, by simp [Table.get?_insert]⟩

namespace Host

/-- A host as the standard rules make them: it tells whether it has a value, and what it defers comes
out. -/
structure Sound (h : Host) : Prop where
  frozen : ∀ value, h.content = .frozen value → h.defined = value.isSome
  unset : h.content = .unset → h.defined = false
  deferred : ∀ d, h.deferred = some d → d.Sure

/-- A look will find a value. -/
def hasValue (h : Host) : Bool :=
  match h.content with
  | .frozen value => value.isSome
  | .unset => h.deferred.isSome

theorem Sound.of_name (name : String) : Sound { name := name } :=
  ⟨fun _ h => by simp at h, fun _ => rfl, fun _ h => by simp at h⟩

theorem Sound.setContent {h : Host} (hs : ∀ d, h.deferred = some d → d.Sure) (value : Option Json) :
    (h.setContent value).Sound :=
  ⟨fun v hv => by rw [← Content.frozen.inj hv]; rfl, fun hv => by simp [Host.setContent] at hv, hs⟩

/-- What a look finds, and the host it leaves. -/
theorem Sound.look {h : Host} (hs : h.Sound) (cache : Table Json) :
    (h.look cache).1.Sound ∧ (h.look cache).2.value.isSome = h.hasValue ∧
      (h.look cache).1.defined = h.hasValue ∧ (h.look cache).1.hasValue = h.hasValue := by
  unfold Host.look hasValue
  cases hc : h.content with
  | frozen value => exact ⟨hs, rfl, hs.frozen value hc, by simp only [hc]⟩
  | unset =>
    cases hd : h.deferred with
    | none => exact ⟨hs, rfl, hs.unset hc, by simp only [hc, hd]⟩
    | some d =>
      obtain ⟨key, value, -, hvalue, -⟩ := (hs.deferred d hd).eval cache
      simp only [hvalue]
      exact ⟨.setContent hs.deferred _, rfl, rfl, rfl⟩

end Host

/-! ## What looks keep -/

namespace ExecState

/-- All hosts are as the standard rules make them. -/
def Sound (s : ExecState) : Prop := ∀ h ∈ s.hosts, h.Sound

/-- A look at a place will find a value. -/
def hasValue (s : ExecState) (id : Nat) : Bool := ((s.host? id).map Host.hasValue).getD false

theorem Sound.of_host? {s : ExecState} (hs : s.Sound) {id : Nat} {h : Host} (hh : s.host? id = some h) :
    h.Sound :=
  hs h (List.mem_of_getElem? hh)

theorem host?_set (s : ExecState) (id : Nat) (h : Host) (id' : Nat) (hid : id < s.hosts.length) :
    (s.hosts.set id h)[id']? = if id = id' then some h else s.host? id' := by
  rw [List.getElem?_set]
  split <;> rfl

/-- What a look at a place finds, and the hosts it leaves. -/
theorem Sound.look {s : ExecState} (hs : s.Sound) (id : Nat) :
    (s.look id).2.Sound ∧ (s.look id).1.isSome = s.hasValue id ∧
      (s.look id).2.isDefined id = s.hasValue id ∧
      ∀ id', (s.look id).2.hasValue id' = s.hasValue id' := by
  unfold ExecState.look hasValue isDefined
  cases hh : s.host? id with
  | none => exact ⟨hs, rfl, by simp [hh], fun _ => rfl⟩
  | some h =>
    obtain ⟨hsound, hvalue, hdefined, hkept⟩ := (hs.of_host? hh).look s.cache
    have hid : id < s.hosts.length := (List.getElem?_eq_some_iff.1 hh).1
    have hset := s.host?_set id (h.look s.cache).1
    refine ⟨fun g hg => ?_, hvalue, ?_, fun id' => ?_⟩
    · rcases List.mem_or_eq_of_mem_set hg with hg | rfl
      · exact hs g hg
      · exact hsound
    · simp only [host?, hset id hid, if_pos, Option.map_some, Option.getD_some, hdefined]
    · simp only [host?, hset id' hid]
      split
      · rename_i heq
        subst heq
        simp only [host?] at hh
        simp [hh, hkept]
      · rfl

end ExecState

/-- From `s` to `t` no host was bound, no step counted and no pass ended, and a host has a value
exactly if it had one. -/
structure Steady (s t : ExecState) : Prop where
  bindings : t.bindings = s.bindings
  position : t.position = s.position
  halted : t.halted = s.halted
  sound : s.Sound → t.Sound
  values : s.Sound → ∀ id, t.hasValue id = s.hasValue id

namespace Steady

variable {s t : ExecState}

theorem refl (s : ExecState) : Steady s s := ⟨rfl, rfl, rfl, id, fun _ _ => rfl⟩

theorem look (id : Nat) (h : Steady s t) : Steady s (t.look id).2 := by
  have hframe : (t.look id).2.bindings = t.bindings ∧ (t.look id).2.position = t.position ∧
      (t.look id).2.halted = t.halted := by
    unfold ExecState.look
    split <;> exact ⟨rfl, rfl, rfl⟩
  refine ⟨hframe.1.trans h.bindings, hframe.2.1.trans h.position, hframe.2.2.trans h.halted,
    fun hs => ((h.sound hs).look id).1, fun hs id' => ?_⟩
  rw [((h.sound hs).look id).2.2.2 id', h.values hs]

/-- Warnings, the cache and the saved variables do not matter. -/
theorem of_eq {u : ExecState} (h : Steady s t) (hb : u.bindings = t.bindings)
    (hp : u.position = t.position) (hh : u.halted = t.halted) (hhosts : u.hosts = t.hosts) :
    Steady s u := by
  refine ⟨hb.trans h.bindings, hp.trans h.position, hh.trans h.halted, fun hs g hg => ?_,
    fun hs id => ?_⟩
  · rw [hhosts] at hg
    exact h.sound hs g hg
  · rw [← h.values hs id, ExecState.hasValue, ExecState.host?, hhosts]
    rfl

theorem warn (message : String) (h : Steady s t) : Steady s (t.warn message) := h.of_eq rfl rfl rfl rfl

theorem noteLookup (found : Lookup) (h : Steady s t) : Steady s (t.noteLookup found) :=
  h.of_eq rfl rfl rfl rfl

end Steady

/-! ## What rules keep -/

/-- What rules do to a state keeps it steady. -/
theorem Acts.steady {s t : ExecState} (h : Acts s t) : Steady s t := by
  induction h with
  | refl => exact .refl s
  | look id _ ih => exact ih.look id
  | warn message _ ih => exact ih.warn message
  | save name saved _ ih => exact ih.of_eq rfl rfl rfl rfl
  | eval d _ ih => exact ih.noteLookup _

/-- Looks and warnings keep a state steady. -/
theorem Looks.steady {s t : ExecState} (h : Looks s t) : Steady s t := (Acts.refl.looks h).steady

namespace ExecRule

/-- A host of the same name that is as the standard rules make them. -/
def Makes (g g' : Host) : Prop := g'.name = g.name ∧ (g.Sound → g'.Sound)

theorem Makes.refl (g : Host) : Makes g g := ⟨rfl, id⟩

theorem Makes.setContent {g g' : Host} (hn : g'.name = g.name) (hd : g'.deferred = g.deferred)
    (value : Option Json) : Makes g (g'.setContent value) :=
  ⟨hn, fun hg => .setContent (fun d h => hg.deferred d (hd ▸ h)) value⟩

theorem makes_storeText (c : Node) (g : Host) (s : ExecState) : Makes g (storeText c g s).1 := by
  refine .setContent ?_ ?_ _ <;> rfl

theorem makes_initText (c : Node) (g : Host) (s : ExecState) : Makes g (initText c g s).1 := by
  have hstored := makes_storeText c g s
  unfold initText
  simp only
  split
  · show Makes g ((storeText c g s).1.look (storeText c g s).2.cache).1
    exact ⟨(Host.name_look _ _).trans hstored.1, fun hg => ((hstored.2 hg).look _).1⟩
  · exact hstored

theorem makes_runInit (c : Node) (g : Host) (s : ExecState) : Makes g (runInit c g s).1 := by
  unfold runInit
  split
  · refine .setContent ?_ ?_ _ <;> rfl
  · split
    · exact makes_initText c g s
    · split
      · refine .setContent ?_ ?_ _ <;> rfl
      · exact makes_initText c g _

/-- What a standard rule does to the host of an assignment. -/
theorem makes_run {rule : ExecRule} (hrule : rule.IsStandard) {c : Node} {host : Option Host}
    {s : ExecState} {done : Executed} (hr : rule.run c host s = .ok done) :
    Option.Rel Makes host done.host := by
  have hsame : ∀ host : Option Host, Option.Rel Makes host host := by
    rintro (_ | g)
    · exact .none
    · exact .some (.refl g)
  cases runs_of_run hrule hr with
  | bare | save | require | textless | malformed => exact hsame _
  | assign g => exact .some (makes_storeText c g s)
  | init g => exact .some (makes_runInit c g s)
  | json =>
    cases host with
    | none => exact .none
    | some g => refine .some (.setContent ?_ ?_ _) <;> rfl
  | upper g =>
    refine .some ⟨rfl, fun hg => ⟨hg.frozen, hg.unset, fun d hd => ?_⟩⟩
    rw [← Option.some.inj hd]
    exact sure_upper _ _
  | attach => exact .none

/-- An assignment binds the host that its command has made. -/
theorem bound_of_makes {g : Host} {done : Executed} (h : Option.Rel Makes (some g) done.host) :
    ∃ g', Makes g g' ∧ done.bound = done.state.bind g' := by
  obtain ⟨command, host, state⟩ := done
  cases h with
  | some hmakes => exact ⟨_, hmakes, rfl⟩

/-- What a standard rule does to the state, unless it can end the pass. -/
theorem steady_run {rule : ExecRule} (hrule : rule.IsStandard) (hne : rule ≠ .require) {c : Node}
    {host : Option Host} {s : ExecState} {done : Executed} (hr : rule.run c host s = .ok done) :
    Steady s done.state := by
  obtain ⟨t, hacts, rfl | ⟨hrequire, -⟩⟩ := acts_run hrule hr
  · exact hacts.steady
  · exact absurd hrequire hne

end ExecRule

/-- What a step of the standard rules does to the state: it acts on it, it may end the pass then, and an
assignment binds a host of its name in the end. -/
theorem acts_runStep {n m : Node} {s t : ExecState}
    (hr : runStep Registry.standard.execution n s = .ok (m, t)) :
    ∃ u v, Acts s u ∧ (v = u ∨ ∃ message, v = u.fatal message) ∧
      (n.kind ≠ .varAssign ∧ t = v ∨
        n.kind = .varAssign ∧ ∃ g, g.name = n.content ∧ g.Sound ∧ t = v.bind g) := by
  obtain ⟨hk, hr⟩ | ⟨rule, done, hk, hrule, hdone, -, rfl⟩ |
    ⟨command, rest, rule, done, hk, -, -, hrule, hdone, -, rfl⟩ := runStep_inv hr
  · exact ⟨t, t, Acts.refl.looks (Looks.runUse hr), .inl rfl, .inl ⟨by rw [hk]; decide, rfl⟩⟩
  · obtain ⟨u, hacts, hu⟩ := ExecRule.acts_run (isStandard_of_get? hrule) hdone
    exact ⟨u, done.state, hacts, hu.imp_right And.right, .inl ⟨by rw [hk]; decide, rfl⟩⟩
  · obtain ⟨u, hacts, hu⟩ := ExecRule.acts_run (isStandard_of_get? hrule) hdone
    obtain ⟨g, hmakes, hbound⟩ :=
      ExecRule.bound_of_makes (ExecRule.makes_run (isStandard_of_get? hrule) hdone)
    exact ⟨u, done.state, hacts, hu.imp_right And.right, .inr ⟨hk, g, hmakes.1, hmakes.2 (.of_name _), hbound⟩⟩

/-- A step of the standard rules that ends the pass says why. -/
theorem warnings_of_halted {n m : Node} {s t : ExecState}
    (hr : runStep Registry.standard.execution n s = .ok (m, t)) (hs : s.halted = false)
    (ht : t.halted = true) : t.warnings ≠ [] := by
  obtain ⟨u, v, hacts, hv, hbound⟩ := acts_runStep hr
  have hsame : t.halted = v.halted ∧ t.warnings = v.warnings := by
    obtain ⟨-, rfl⟩ | ⟨-, g, -, -, rfl⟩ := hbound <;> exact ⟨rfl, rfl⟩
  rw [hsame.1] at ht
  rw [hsame.2]
  obtain rfl | ⟨message, rfl⟩ := hv
  · rw [hacts.steady.halted, hs] at ht
    cases ht
  · simp [ExecState.fatal, ExecState.warn]

/-! ## Names without a value -/

/-- Nothing is bound to the name, or there is nothing to be found where it is bound. -/
def ExecState.Lacks (s : ExecState) (name : String) : Prop :=
  ∀ id, s.bound? name = some id → (s.look id).1 = none

theorem lacks_iff_hasValue {s : ExecState} (hs : s.Sound) (name : String) :
    s.Lacks name ↔ ∀ id, s.bound? name = some id → s.hasValue id = false := by
  refine forall_congr' fun id => imp_congr_right fun _ => ?_
  rw [← (hs.look id).2.1, Option.isSome_eq_false_iff, Option.isNone_iff_eq_none]

/-- What is known of a name stays known. -/
theorem Steady.lacks_iff {s t : ExecState} (h : Steady s t) (hs : s.Sound) (name : String) :
    t.Lacks name ↔ s.Lacks name := by
  rw [lacks_iff_hasValue (h.sound hs), lacks_iff_hasValue hs, ExecState.bound?, ExecState.bound?,
    h.bindings]
  simp only [h.values hs]

namespace ExecRule

theorem missingNames_eq_nil_iff (names : List String) : ∀ {s : ExecState}, s.Sound →
    ((missingNames s names).1 = [] ↔ ∀ name ∈ names, ¬ s.Lacks name) := by
  induction names with
  | nil => exact fun _ => by simp [missingNames]
  | cons name rest ih =>
    intro s hs
    rw [List.forall_mem_cons, lacks_iff_hasValue hs, missingNames]
    cases hb : s.bound? name with
    | none => simp
    | some id =>
      have hlook : Steady s (s.look id).2 := (Steady.refl s).look id
      obtain ⟨hsound, -, hdefined, -⟩ := hs.look id
      simp only [hdefined, Option.some.injEq, forall_eq', Bool.not_eq_false]
      cases s.hasValue id with
      | false => simp
      | true => simp [ih hsound, hlook.lacks_iff hs]

/-- `require` ends the pass exactly if one of the names has no value, and then says so. -/
theorem runRequire_cases {s : ExecState} (hs : s.Sound) (names : List String) :
    ((∀ name ∈ names, ¬ s.Lacks name) ∧ Looks s (runRequire s names)) ∨
      (∃ name ∈ names, s.Lacks name) ∧
        ∃ t message, Looks s t ∧ runRequire s names = t.fatal message := by
  have hlooks := (Looks.refl s).missingNames names
  have hiff := missingNames_eq_nil_iff names hs
  unfold runRequire
  simp only [List.isEmpty_iff]
  split
  · rename_i hnil
    exact .inl ⟨hiff.1 hnil, hlooks⟩
  · rename_i hne
    refine .inr ⟨?_, _, _, hlooks, rfl⟩
    rw [hiff] at hne
    simpa using hne

end ExecRule

end Evomark
