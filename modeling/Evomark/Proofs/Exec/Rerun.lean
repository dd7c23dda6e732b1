import Mathlib.Data.List.Forall2
import Evomark.Proofs.Exec.Grows
import Evomark.Proofs.Exec.Mirror
/-!
# A second run with what the first has left

A document is executed again with the context that a pass over it has left. The two passes differ in
what they do: where the first evaluates the body of `init` the second finds the variable saved, and where
the first computes a value the second finds it in the cache. But since the first pass only adds to its
tables, everything that it will have found is in them at its end (`ExecState.Settles`), and the second,
which has these tables from the start, is always in a state that `Repeats` that of the first: its hosts
have the same contents, or contents not yet looked at that will turn out the same (`Host.Repeats`). So
every step does the same (`ExecState.Repeats.runStep`), and at the end nothing has been added
(`exec_context_settles`).
-/

namespace Evomark

open ExecRule (bodyItems)

/-- What a state has in its tables is in a context, and a bound name has nothing saved there that it does
not have in the state. -/
structure ExecState.Settles (s : ExecState) (ctx : Context) : Prop where
  cache : ∀ {key value}, s.cache.get? key = some value → ctx.cache.get? key = some value
  saved : ∀ {name}, (s.saved.get? name).isSome = true ∨ (s.bound? name).isSome = true →
    ctx.saved.get? name = s.saved.get? name

theorem ExecState.Settles.self (s : ExecState) : s.Settles s.context := ⟨id, fun _ => rfl⟩

/-- What settles at the end of a pass has settled all along. -/
theorem ExecState.Settles.before {s t : ExecState} {ctx : Context} (h : t.Settles ctx) (hg : Grows s t) :
    s.Settles ctx := by
  refine ⟨fun hk => h.cache (hg.cache hk), fun hn => ?_⟩
  have hsame := hg.saved hn
  rw [← hsame]
  exact h.saved (hn.imp (fun hs => by rwa [hsame]) hg.bound)

/-! ## Hosts -/

namespace Host

/-- The first host has a content that is computed already, and the second will find it in the cache. -/
structure Ahead (cache : Table Json) (h g : Host) : Prop where
  unset : g.content = .unset
  defined : h.defined = true
  found : ∃ d key value, h.deferred = some d ∧ d.hash = some key ∧ cache.get? key = some value ∧
    h.content = .frozen (some value)

/-- A host of the first pass, and the same host of the second, whose cache is `cache`. -/
structure Repeats (cache : Table Json) (h g : Host) : Prop where
  name : g.name = h.name
  type : g.type = h.type
  deferred : g.deferred = h.deferred
  sure : ∀ d, h.deferred = some d → d.Sure
  content : (g.content = h.content ∧ g.defined = h.defined) ∨ Ahead cache h g

namespace Repeats

variable {cache own : Table Json} {h g : Host}

/-- A host that defers nothing and is the same in both passes. -/
theorem refl (hd : h.deferred = none) : Repeats cache h h :=
  ⟨rfl, rfl, rfl, fun _ h => absurd (hd.symm.trans h) nofun, .inl ⟨rfl, rfl⟩⟩

theorem setContent (hn : g.name = h.name) (ht : g.type = h.type) (hg : g.deferred = none)
    (hh : h.deferred = none) (value : Option Json) : Repeats cache (h.setContent value) (g.setContent value) :=
  ⟨hn, ht, hg.trans hh.symm, fun _ hd => absurd (hh.symm.trans hd) nofun, .inl ⟨rfl, rfl⟩⟩

/-- What both hosts give when they are looked at, if the second pass has what the first finds. -/
theorem look (r : Repeats cache h g)
    (hc : ∀ {key value}, (h.look own).2.cache.get? key = some value → cache.get? key = some value) :
    (g.look cache).2.value = (h.look own).2.value ∧ (g.look cache).2.cache = cache ∧
      Repeats cache (h.look own).1 (g.look cache).1 ∧
      (g.look cache).1.defined = (h.look own).1.defined ∧ Repeats cache (h.look own).1 g := by
  unfold Host.look at hc ⊢
  rcases r.content with ⟨hcontent, hdefined⟩ | ha
  · cases hh : h.content with
    | frozen value =>
      simp only [hcontent, hh]
      exact ⟨trivial, trivial, r, hdefined, r⟩
    | unset =>
      cases hd : h.deferred with
      | none =>
        simp only [hcontent, hh, r.deferred, hd]
        exact ⟨trivial, trivial, r, hdefined, r⟩
      | some d =>
        simp only [hh, hd] at hc
        obtain ⟨key, value, hkey, hvalue, hcached⟩ := (r.sure d hd).eval own
        have heval := Deferred.eval_of_cached hkey (hc hcached)
        simp only [hcontent, hh, r.deferred, hd, heval, hvalue]
        refine ⟨trivial, trivial, ⟨r.name, r.type, r.deferred, r.sure, .inl ⟨rfl, rfl⟩⟩, rfl,
          r.name, r.type, r.deferred, r.sure, .inr ⟨hcontent.trans hh, rfl, ?_⟩⟩
        exact ⟨d, key, value, hd, hkey, hc hcached, rfl⟩
  · obtain ⟨d, key, value, hd, hkey, hcached, hh⟩ := ha.found
    have heval := Deferred.eval_of_cached hkey hcached
    simp only [ha.unset, hh, r.deferred, hd, heval]
    exact ⟨trivial, trivial, ⟨r.name, r.type, r.deferred, r.sure, .inl ⟨hh.symm, ha.defined.symm⟩⟩,
      ha.defined.symm, r⟩

end Repeats

end Host

/-! ## States -/

theorem forall₂_getElem? {α β : Type} {R : α → β → Prop} {xs : List α} {ys : List β}
    (h : List.Forall₂ R xs ys) (i : Nat) :
    (xs[i]? = none ∧ ys[i]? = none) ∨ ∃ x y, xs[i]? = some x ∧ ys[i]? = some y ∧ R x y := by
  induction h generalizing i with
  | nil => exact .inl ⟨rfl, rfl⟩
  | cons hab _ ih =>
    cases i with
    | zero => exact .inr ⟨_, _, rfl, rfl, hab⟩
    | succ i => exact ih i

theorem forall₂_set {α β : Type} {R : α → β → Prop} {xs : List α} {ys : List β} (h : List.Forall₂ R xs ys)
    (i : Nat) {x : α} {y : β} (hxy : R x y) : List.Forall₂ R (xs.set i x) (ys.set i y) := by
  induction h generalizing i with
  | nil => exact .nil
  | cons hab htail ih =>
    cases i with
    | zero => exact .cons hxy htail
    | succ i => exact .cons hab (ih i)

/-- A state of the first pass, and the same state of the second, which runs with `ctx`. -/
structure ExecState.Repeats (ctx : Context) (s t : ExecState) : Prop where
  cache : t.cache = ctx.cache
  saved : t.saved = ctx.saved
  bindings : t.bindings = s.bindings
  hosts : List.Forall₂ (Host.Repeats ctx.cache) s.hosts t.hosts
  halted : t.halted = s.halted
  warnings : t.warnings = s.warnings
  position : t.position = s.position

namespace ExecState.Repeats

variable {ctx : Context} {s t : ExecState}

theorem ofContext (initial ctx : Context) : Repeats ctx (.ofContext initial) (.ofContext ctx) :=
  ⟨rfl, rfl, rfl, .nil, rfl, rfl, rfl⟩

theorem next (r : Repeats ctx s t) : Repeats ctx s.next t.next :=
  ⟨r.cache, r.saved, r.bindings, r.hosts, r.halted, rfl, congrArg (· + 1) r.position⟩

theorem last (r : Repeats ctx s t) : Repeats ctx s.last t.last :=
  ⟨r.cache, r.saved, r.bindings, r.hosts, r.halted, rfl, r.position⟩

theorem warn (r : Repeats ctx s t) (message : String) : Repeats ctx (s.warn message) (t.warn message) :=
  ⟨r.cache, r.saved, r.bindings, r.hosts, r.halted, congrArg (· ++ [message]) r.warnings, r.position⟩

theorem fatal (r : Repeats ctx s t) (message : String) : Repeats ctx (s.fatal message) (t.fatal message) :=
  have w := r.warn message
  ⟨w.cache, w.saved, w.bindings, w.hosts, rfl, w.warnings, w.position⟩

theorem bound? (r : Repeats ctx s t) (name : String) : t.bound? name = s.bound? name := by
  rw [ExecState.bound?, r.bindings]
  rfl

theorem bind (r : Repeats ctx s t) {h g : Host} (hg : Host.Repeats ctx.cache h g) :
    Repeats ctx (s.bind h) (t.bind g) := by
  refine ⟨r.cache, r.saved, ?_, List.rel_append r.hosts (.cons hg .nil), r.halted, r.warnings, r.position⟩
  simp only [ExecState.bind, r.bindings, hg.name, r.hosts.length_eq]

/-- A look gives the same on both sides, and may be left out on the second. -/
theorem look (r : Repeats ctx s t) (id : Nat) (hs : (s.look id).2.Settles ctx) :
    (t.look id).1 = (s.look id).1 ∧ Repeats ctx (s.look id).2 (t.look id).2 ∧
      (t.look id).2.isDefined id = (s.look id).2.isDefined id ∧ Repeats ctx (s.look id).2 t := by
  unfold ExecState.look at *
  rcases forall₂_getElem? r.hosts id with ⟨hh, hg⟩ | ⟨h, g, hh, hg, hrepeats⟩
  · simp only [host?, hh, hg]
    exact ⟨trivial, r, by simp only [isDefined, host?, hh, hg], r⟩
  · simp only [host?, hh, hg, r.cache] at hs ⊢
    obtain ⟨hvalue, hcache, hlooked, hdefined, hpeeked⟩ := hrepeats.look hs.cache
    have hid : id < s.hosts.length := (List.getElem?_eq_some_iff.1 hh).1
    have hid' : id < t.hosts.length := (List.getElem?_eq_some_iff.1 hg).1
    refine ⟨hvalue, ?_, ?_, ?_⟩
    · exact ⟨hcache, r.saved, r.bindings, forall₂_set r.hosts id hlooked, r.halted, r.warnings, r.position⟩
    · simp [isDefined, host?, hid, hid', hdefined]
    · refine ⟨r.cache, r.saved, r.bindings, ?_, r.halted, r.warnings, r.position⟩
      have hset := forall₂_set r.hosts id hpeeked
      rwa [← (List.getElem?_eq_some_iff.1 hg).2, List.set_getElem_self] at hset

/-- Looks of the first pass alone. -/
theorem peeks {s' : ExecState} (r : Repeats ctx s t) (hp : Peeks s s') (hs : s'.Settles ctx) :
    Repeats ctx s' t := by
  induction hp with
  | refl => exact r
  | look id hp ih => exact ((ih (hs.before ((Grows.refl _).look id))).look id hs).2.2.2

/-- The two passes look the same in each state. -/
theorem mirrors (ctx : Context) : Mirrors (·.Settles ctx) (Repeats ctx) where
  before hl hs := hs.before hl.grows
  beforeFatal hs := hs.before ((Grows.refl _).fatal _)
  bound? r := r.bound?
  type r id := by
    rcases forall₂_getElem? r.hosts id with ⟨hh, hg⟩ | ⟨h, g, hh, hg, hrepeats⟩
    · simp only [host?, hh, hg]
    · simp only [host?, hh, hg, Option.map_some, hrepeats.type]
  look r id hs := by
    obtain ⟨hvalue, hstate, hdefined, -⟩ := r.look id hs
    exact ⟨⟨hvalue, hstate⟩, hdefined⟩
  warn r message := r.warn message
  fatal r message := r.fatal message

end ExecState.Repeats

/-! ## Rules -/

/-- What a rule did to a command in both passes. -/
structure Executed.Repeats (ctx : Context) (d e : Executed) : Prop where
  command : e.command = d.command
  host : Option.Rel (Host.Repeats ctx.cache) d.host e.host
  state : d.state.Repeats ctx e.state

namespace ExecState.Repeats

variable {ctx : Context} {s t : ExecState} {c : Node} {g : Host}

theorem storeText (r : Repeats ctx s t) (hd : g.deferred = none) (hs : (ExecRule.storeText c g s).2.Settles ctx) :
    Host.Repeats ctx.cache (ExecRule.storeText c g s).1 (ExecRule.storeText c g t).1 ∧
      Repeats ctx (ExecRule.storeText c g s).2 (ExecRule.storeText c g t).2 := by
  obtain ⟨hhost, hstate⟩ := (mirrors ctx).storeText c g r hs
  rw [hhost]
  refine ⟨.refl ?_, hstate⟩
  exact hd

/-- What the first pass evaluates and saves, the second restores. -/
theorem initText (r : Repeats ctx s t) (hd : g.deferred = none) (hb : s.bound? g.name = none)
    (hsaved : s.saved.get? g.name = none) (hs : (ExecRule.initText c g s).2.Settles ctx)
    (hkey : ctx.saved.get? g.name = (ExecRule.initText c g s).2.saved.get? g.name) :
    Host.Repeats ctx.cache (ExecRule.initText c g s).1 (ExecRule.runInit c g t).1 ∧
      Repeats ctx (ExecRule.initText c g s).2 (ExecRule.runInit c g t).2 := by
  have hb' : t.bound? g.name = none := (r.bound? g.name).trans hb
  cases htext : (synthesize s (bodyItems c)).1 with
  | none =>
    rw [ExecRule.initText_of_none htext] at hs hkey ⊢
    have htext' := ((mirrors ctx).synthesize (bodyItems c) r hs).1.trans htext
    have hsaved' : t.saved.get? g.name = none := by
      rw [r.saved, hkey, ((Looks.refl s).storeText c g).saved, hsaved]
    rw [ExecRule.runInit_of_unsaved hb' hsaved', ExecRule.initText_of_none htext']
    exact r.storeText hd hs
  | some text =>
    have hlooks := (Looks.refl s).storeText c g
    rw [ExecRule.initText_of_some htext] at hs hkey ⊢
    have hsaved' : t.saved.get? g.name = some ⟨.str, .string text⟩ := by
      rw [r.saved, hkey, Table.get?_insert, if_pos rfl]
    have hsettles : (ExecRule.storeText c g s).2.Settles ctx := by
      refine hs.before ((Grows.refl _).save rfl ?_ ?_)
      · rwa [hlooks.saved]
      · rwa [ExecState.bound?, hlooks.steady.bindings]
    have hpeeked := r.peeks (Peeks.synthesize htext) hsettles
    rw [ExecRule.runInit_of_saved hb' hsaved' rfl]
    refine ⟨?_, hpeeked.cache, hpeeked.saved, hpeeked.bindings, hpeeked.hosts, hpeeked.halted,
      hpeeked.warnings, hpeeked.position⟩
    unfold ExecRule.storeText
    simp only [htext, Option.map_some]
    refine .setContent ?_ ?_ ?_ ?_ _
    · rfl
    · rfl
    · exact hd
    · exact hd

/-- `init` does the same in both passes. -/
theorem runInit (r : Repeats ctx s t) (hd : g.deferred = none) (hf : s.context.Fit)
    (hs : ((ExecRule.runInit c g s).2.bind (ExecRule.runInit c g s).1).Settles ctx) :
    Host.Repeats ctx.cache (ExecRule.runInit c g s).1 (ExecRule.runInit c g t).1 ∧
      Repeats ctx (ExecRule.runInit c g s).2 (ExecRule.runInit c g t).2 := by
  have hstate := hs.before ((Grows.refl _).bind _)
  have hkey : ctx.saved.get? g.name = (ExecRule.runInit c g s).2.saved.get? g.name := by
    refine hs.saved (.inr ?_)
    show ((Table.insert _ _ _).get? g.name).isSome = true
    rw [Table.get?_insert, if_pos (ExecRule.makes_runInit c g s).1]
    rfl
  cases hb : s.bound? g.name with
  | some id =>
    unfold ExecRule.runInit at hstate ⊢
    rw [r.bound? g.name]
    simp only [hb] at hstate ⊢
    obtain ⟨hvalue, hlooked, -⟩ := r.look id hstate
    rw [hvalue, (mirrors ctx).type r id]
    refine ⟨.refl ?_, hlooked⟩
    exact hd
  | none =>
    cases hsaved : s.saved.get? g.name with
    | none =>
      rw [ExecRule.runInit_of_unsaved hb hsaved] at hstate hkey ⊢
      exact r.initText hd hb hsaved hstate hkey
    | some saved =>
      have hfits := hf g.name saved hsaved
      rw [ExecRule.runInit_of_saved hb hsaved hfits] at hkey ⊢
      have hsaved' : t.saved.get? g.name = some saved := by rw [r.saved, hkey, hsaved]
      rw [ExecRule.runInit_of_saved ((r.bound? g.name).trans hb) hsaved' hfits]
      refine ⟨.refl ?_, r⟩
      exact hd

/-- Outside an assignment `upper` attaches the same in both passes. -/
theorem attachUpper (r : Repeats ctx s t) (text : String) (position : Nat)
    (hs : (ExecRule.attachUpper c (ExecRule.upperInput text position) s).2.Settles ctx) :
    SameThen (Repeats ctx) (ExecRule.attachUpper c (ExecRule.upperInput text position) s)
      (ExecRule.attachUpper c (ExecRule.upperInput text position) t) := by
  obtain ⟨key, value, hkey, hvalue, hcached⟩ := (sure_upper text position).eval s.cache
  have hctx : ctx.cache.get? key = some value := by
    refine hs.cache ?_
    rw [ExecRule.attachUpper_eq]
    split <;> exact hcached
  simp only [ExecRule.attachUpper_eq, r.cache, Deferred.eval_of_cached hkey hctx, hvalue]
  split <;> exact ⟨rfl, rfl, r.saved, r.bindings, r.hosts, r.halted, r.warnings, r.position⟩

/-- A host that defers nothing is the same in both passes. -/
theorem refl_host {host : Option Host} (hh : ∀ g ∈ host, g.deferred = none) :
    Option.Rel (Host.Repeats ctx.cache) host host := by
  cases host with
  | none => exact .none
  | some g => exact .some (.refl (hh g rfl))

/-- `json` does the same in both passes. -/
theorem runJson (r : Repeats ctx s t) {host : Option Host} (hh : ∀ g ∈ host, g.deferred = none)
    (hs : ∀ done, ExecRule.json.run c host s = .ok done → done.state.Settles ctx) :
    Alike (Executed.Repeats ctx) (ExecRule.json.run c host s) (ExecRule.json.run c host t) := by
  rcases hsynthesize : synthesize s (bodyItems c) with ⟨text, dependencies, s'⟩
  unfold ExecRule.run at hs ⊢
  simp only [hsynthesize] at hs ⊢
  cases text with
  | none =>
    obtain ⟨t', ht, hstate⟩ := (mirrors ctx).synthesize_eq r hsynthesize (hs _ rfl)
    rw [ht]
    exact .ok ⟨rfl, refl_host hh, hstate⟩
  | some text =>
    simp only at hs ⊢
    have hsettles : s'.Settles ctx := by
      split at hs
      · exact hs _ rfl
      · exact (hs _ rfl).before ((Grows.refl _).warn _)
    obtain ⟨t', ht, hstate⟩ := (mirrors ctx).synthesize_eq r hsynthesize hsettles
    rw [ht]
    simp only
    split
    · refine .ok ⟨rfl, refl_host fun g hg => ?_, hstate⟩
      obtain ⟨h, hmem, rfl⟩ := Option.map_eq_some_iff.1 hg
      exact hh h hmem
    · exact .ok ⟨rfl, refl_host hh, hstate.warn _⟩

/-- `upper` does the same in both passes. In an assignment the text is left to a look. -/
theorem runUpper (r : Repeats ctx s t) {host : Option Host} (hh : ∀ g ∈ host, g.deferred = none)
    (hs : ∀ done, ExecRule.upper.run c host s = .ok done → done.state.Settles ctx) :
    Alike (Executed.Repeats ctx) (ExecRule.upper.run c host s) (ExecRule.upper.run c host t) := by
  rcases hsynthesize : synthesize s (bodyItems c) with ⟨text, dependencies, s'⟩
  unfold ExecRule.run at hs ⊢
  simp only [hsynthesize] at hs ⊢
  cases text with
  | none =>
    obtain ⟨t', ht, hstate⟩ := (mirrors ctx).synthesize_eq r hsynthesize (hs _ rfl)
    rw [ht]
    exact .ok ⟨rfl, refl_host hh, hstate⟩
  | some text =>
    cases host with
    | some g =>
      obtain ⟨t', ht, hstate⟩ := (mirrors ctx).synthesize_eq r hsynthesize (hs _ rfl)
      rw [ht]
      simp only [hstate.position]
      refine .ok ⟨rfl, .some ⟨rfl, rfl, rfl, fun d hd => ?_, .inl ⟨rfl, rfl⟩⟩, hstate⟩
      rw [← Option.some.inj hd]
      exact sure_upper _ _
    | none =>
      have hattached := hs _ rfl
      obtain ⟨t', ht, hstate⟩ := (mirrors ctx).synthesize_eq r hsynthesize
        (hattached.before (ExecRule.grows_attachUpper c _ s'))
      rw [ht]
      simp only [hstate.position]
      obtain ⟨hcommand, hstate⟩ := hstate.attachUpper text s'.position hattached
      exact .ok ⟨hcommand, .none, hstate⟩

/-- Every standard rule but `save` does the same in both passes. -/
theorem run (r : Repeats ctx s t) {rule : ExecRule} (hrule : rule.IsStandard) (hne : rule ≠ .save)
    (hf : s.context.Fit) {host : Option Host} (hh : ∀ g ∈ host, g.deferred = none)
    (hs : ∀ done, rule.run c host s = .ok done → done.bound.Settles ctx) :
    Alike (Executed.Repeats ctx) (rule.run c host s) (rule.run c host t) := by
  have hstate : ∀ done, rule.run c host s = .ok done → done.state.Settles ctx := fun done hdone =>
    (hs done hdone).before (grows_bound done)
  cases rule with
  | warn | fatal | halt | fail | provide => exact hrule.elim
  | save => exact absurd rfl hne
  | require => exact .ok ⟨rfl, refl_host hh, (mirrors ctx).runRequire _ r (hstate _ rfl)⟩
  | assign =>
    cases host with
    | none => exact .ok ⟨rfl, .none, r⟩
    | some g =>
      obtain ⟨hhost, hstate⟩ := r.storeText (hh g rfl) (hstate _ rfl)
      exact .ok ⟨rfl, .some hhost, hstate⟩
  | init =>
    cases host with
    | none => exact .ok ⟨rfl, .none, r⟩
    | some g =>
      obtain ⟨hhost, hstate⟩ := r.runInit (hh g rfl) hf (hs _ rfl)
      exact .ok ⟨rfl, .some hhost, hstate⟩
  | json => exact r.runJson hh hstate
  | upper => exact r.runUpper hh hstate

/-! ## Steps and passes -/

/-- An assignment binds the same in both passes. -/
theorem bound {d e : Executed} (h : Executed.Repeats ctx d e) : Repeats ctx d.bound e.bound := by
  have hhost := h.host
  unfold Executed.bound
  cases hd : d.host <;> cases he : e.host <;> rw [hd, he] at hhost <;> cases hhost
  · exact h.state
  · rename_i hrepeats
    exact h.state.bind hrepeats

/-- Every step that does not save does the same in both passes. -/
theorem runStep (r : Repeats ctx s t) {n m : Node} {s' : ExecState} (hn : n.SavesNothing) (hf : s.context.Fit)
    (hr : runStep Registry.standard.execution n s = .ok (m, s')) (hs : s'.Settles ctx) :
    ∃ t', Evomark.runStep Registry.standard.execution n t = .ok (m, t') ∧ Repeats ctx s' t' := by
  obtain ⟨hk, huse⟩ | ⟨rule, done, hk, hrule, hdone, rfl, rfl⟩ |
    ⟨command, rest, rule, done, hk, hchildren, hcmd, hrule, hdone, rfl, rfl⟩ := runStep_inv hr
  · have halike := (mirrors ctx).runUse n r fun n' s'' h => by
      obtain ⟨-, rfl⟩ := Prod.mk.inj (Except.ok.inj (huse.symm.trans h))
      exact hs
    rw [huse] at halike
    obtain ⟨⟨m', t'⟩, ht, hm, hstate⟩ := halike.of_ok
    obtain rfl : m' = m := hm
    refine ⟨t', ?_, hstate⟩
    unfold Evomark.runStep
    simp only [hk]
    exact ht
  · have hsettles : ∀ done', rule.run n none s = .ok done' → done'.bound.Settles ctx := by
      intro done' h
      obtain rfl := Except.ok.inj (hdone.symm.trans h)
      rwa [ExecRule.bound_of_run (isStandard_of_get? hrule) hdone]
    have halike := r.run (isStandard_of_get? hrule) (hn.rule (command?_of_cmd hk) hrule) hf
      (by simp) hsettles
    rw [hdone] at halike
    obtain ⟨done', ht, hdone'⟩ := halike.of_ok
    refine ⟨done'.state, ?_, hdone'.state⟩
    unfold Evomark.runStep
    simp only [hk, hrule, ht, ← hdone'.command]
    rfl
  · have hsettles : ∀ done', rule.run command (some { name := n.content }) s = .ok done' →
        done'.bound.Settles ctx := by
      intro done' h
      obtain rfl := Except.ok.inj (hdone.symm.trans h)
      exact hs
    have hdeferred : ∀ g ∈ some ({ name := n.content } : Host), g.deferred = none := by
      intro g hg
      rw [← Option.some.inj hg]
    have halike := r.run (isStandard_of_get? hrule)
      (hn.rule (command?_of_varAssign hk hchildren hcmd) hrule) hf hdeferred hsettles
    rw [hdone] at halike
    obtain ⟨done', ht, hdone'⟩ := halike.of_ok
    refine ⟨done'.bound, ?_, bound hdone'⟩
    unfold Evomark.runStep
    simp only [hk, runAssignment_ok hchildren hcmd hrule ht, hdone'.command]

end ExecState.Repeats

/-- A second pass, from a state that repeats that of the first, leaves the same nodes and ends in the same
way, if the first does not fail. -/
theorem runNodes_repeats {ctx : Context} (ns : List Node) (s : ExecState)
    (hns : Throughout Node.SavesNothing ns) (hf : s.context.Fit) {t : ExecState} (r : s.Repeats ctx t)
    (ho : ∀ e, (runNodes Registry.standard.execution ns s).outcome ≠ .failed e)
    (hs : (runNodes Registry.standard.execution ns s).state.Settles ctx) :
    (runNodes Registry.standard.execution ns t).nodes = (runNodes Registry.standard.execution ns s).nodes ∧
      (runNodes Registry.standard.execution ns t).outcome =
        (runNodes Registry.standard.execution ns s).outcome ∧
      (runNodes Registry.standard.execution ns s).state.Repeats ctx
        (runNodes Registry.standard.execution ns t).state := by
  revert t hns hf ho hs
  refine runNodes_induct Registry.standard.execution
    (motive := fun ns s w => Throughout Node.SavesNothing ns → s.context.Fit → ∀ {t}, s.Repeats ctx t →
      (∀ e, w.outcome ≠ .failed e) → w.state.Settles ctx →
      (runNodes Registry.standard.execution ns t).nodes = w.nodes ∧
        (runNodes Registry.standard.execution ns t).outcome = w.outcome ∧
        w.state.Repeats ctx (runNodes Registry.standard.execution ns t).state)
    ?nil ?marker ?failed ?halted ?executed ?inside ?ended ns s
  case nil =>
    intro s _ _ t r _ _
    rw [runNodes]
    exact ⟨rfl, rfl, r⟩
  case marker =>
    intro n rest s hm ih hns hf t r ho hs
    rw [runNodes_of_marker hm]
    exact ih hns.afterMarker hf r ho hs
  case failed => exact fun _ _ _ e _ _ _ _ _ _ _ ho _ => absurd rfl (ho e)
  case halted =>
    intro n rest s m s' hn hm hr hhalted hns hf t r _ hs
    obtain ⟨t', ht, r'⟩ := r.runStep hns.head hf hr (hs.before (Grows.refl s').last)
    rw [runNodes_of_halted hn hm ht (r'.halted.trans hhalted), r'.warnings]
    exact ⟨rfl, rfl, r'.last⟩
  case executed =>
    intro n rest s m s' hn hm hr hhalted ih hns hf t r ho hs
    have hstep := (grows_runStep hns.head hf hr).next
    have hrest := grows_runNodes rest s'.next hns.tail (hstep.fit hf)
    have hsettles := (hs.before hrest).before (Grows.refl s').next
    obtain ⟨t', ht, r'⟩ := r.runStep hns.head hf hr hsettles
    obtain ⟨hnodes, houtcome, hstate⟩ := ih hns.tail (hstep.fit hf) r'.next ho hs
    rw [runNodes_of_ok hn hm ht (r'.halted.trans hhalted), r'.warnings, hnodes]
    exact ⟨rfl, houtcome, hstate⟩
  case inside =>
    intro label children rest s w hn hw hcompleted ih ihrest hns hf t r ho hs
    subst hw
    have hinside := grows_runNodes children s (hns.inside hn) hf
    have hrest := grows_runNodes rest _ hns.tail (hinside.fit hf)
    obtain ⟨hnodes, houtcome, hstate⟩ := ih (hns.inside hn) hf r (by simp [hcompleted]) (hs.before hrest)
    obtain ⟨hnodes', houtcome', hstate'⟩ := ihrest hns.tail (hinside.fit hf) hstate ho hs
    rw [runNodes_of_completed hn (houtcome.trans hcompleted), hnodes, hnodes']
    exact ⟨rfl, houtcome', hstate'⟩
  case ended =>
    intro label children rest s w hn hw hne ih hns hf t r ho hs
    subst hw
    obtain ⟨hnodes, houtcome, hstate⟩ := ih (hns.inside hn) hf r ho hs
    rw [runNodes_of_ended hn (by rw [houtcome]; exact hne), hnodes]
    exact ⟨rfl, houtcome, hstate⟩

/-- The commands that are no `save` are all that a pass can meet. -/
theorem throughout_savesNothing {document : Node}
    (h : ∀ command ∈ commandList document, command.2.SavesNothing) :
    Throughout Node.SavesNothing document.children := by
  intro m hm
  cases hn : m.kind.isCommand with
  | true =>
    have hmap : m ∈ (commandList document).map (·.2) := by
      rw [commandList, map_commandsOf]
      exact List.mem_filter.2 ⟨hm, hn⟩
    obtain ⟨command, hc, rfl⟩ := List.mem_map.1 hmap
    exact h command hc
  | false =>
    intro command hc
    unfold Node.command? at hc
    split at hc
    · rename_i hk
      rw [hk] at hn
      cases hn
    · rename_i hk
      rw [hk] at hn
      cases hn
    · cases hc

/-- The context that a pass leaves is settled after one run: without `save`, and with saved values that
fit their types, a second run with that context ends in the same way at the same position, leaves the
same document, and adds nothing to the context. -/
theorem exec_context_settles (source : String) (ctx : Context)
    (hsave : ∀ command ∈ commandList (Registry.standard.parse source).document, command.2.SavesNothing)
    (hfit : ctx.Fit) :
    let rules := Registry.standard.execution
    let document := (Registry.standard.parse source).document
    let first := exec rules document ctx
    let second := exec rules document first.state.context
    (∀ e, first.outcome ≠ .failed e) →
      second.outcome = first.outcome ∧ second.state.halted = first.state.halted ∧
      second.state.position = first.state.position ∧ second.document = first.document ∧
      second.state.context = first.state.context := by
  intro rules document first second ho
  have hns : Throughout Node.SavesNothing document.children := throughout_savesNothing hsave
  obtain ⟨hnodes, houtcome, hstate⟩ := runNodes_repeats document.children (.ofContext ctx) hns hfit
    (.ofContext ctx first.state.context) ho (.self _)
  refine ⟨houtcome, hstate.halted, hstate.position, congrArg (Node.mk document.label) hnodes, ?_⟩
  exact congrArg₂ Context.mk hstate.cache hstate.saved

/-- A text that is saved already, one that the first pass saves, and one that it computes. -/
theorem exec_context_settles_init :
    let rules := Registry.standard.execution
    let document :=
      (Registry.standard.parse "%x = $init\x7bone\x7d\n%y = $init\x7btwo\x7d\n%z = $upper\x7b%y\x7d\n%x %z").document
    let first := exec rules document { saved := [("x", ⟨.str, .string "old"⟩)] }
    let second := exec rules document first.state.context
    second.outcome = first.outcome ∧ second.state.halted = first.state.halted ∧
      second.state.position = first.state.position ∧ second.document = first.document ∧
      second.state.context = first.state.context := by
  intro rules document first second
  have hfit : ({ saved := [("x", ⟨.str, .string "old"⟩)] } : Context).Fit := by
    intro name saved h
    obtain ⟨-, rfl⟩ : name = "x" ∧ saved = ⟨.str, .string "old"⟩ := by
      simpa [Table.get?, eq_comm] using h
    rfl
  have ho : first.outcome = .completed := by decide +kernel
  exact exec_context_settles
    "%x = $init\x7bone\x7d\n%y = $init\x7btwo\x7d\n%z = $upper\x7b%y\x7d\n%x %z"
    { saved := [("x", ⟨.str, .string "old"⟩)] } (by decide +kernel) hfit
    (fun e he => Outcome.noConfusion (ho.symm.trans he))

end Evomark
