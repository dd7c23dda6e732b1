import Evomark.Proofs.Exec.Grows
import Evomark.Proofs.Exec.Trace
/-!
# Hosts freeze

The first look at a host settles it: what was found is held from then on, and found again without
computing anything (`Host.look_of_isFinal`). `Host.Onward` says of two hosts that looks have made the
one of the other, and `ExecState.Onward` that this is so of all hosts of a state, and that nothing
cached is lost. A step of the standard rules goes onward only (`onward_runStep`), so that a host which
has been looked at stays as the look has left it (`Host.Onward.eq`).
-/

namespace Evomark

/-- All entries of a table are in the other. -/
def Table.Sub {α : Type} (table larger : Table α) : Prop :=
  ∀ ⦃key value⦄, table.get? key = some value → larger.get? key = some value

/-! ## Deferred contents -/

/-- The two ways of an evaluation: a hit, or a run whose value is cached if there are one and a hash. -/
theorem Deferred.eval_cases (d : Deferred) (cache : Table Json) :
    (∃ hash value, d.hash = some hash ∧ cache.get? hash = some value ∧
      d.eval cache = ⟨some value, cache, []⟩) ∨
    ((∀ hash, d.hash = some hash → cache.get? hash = none) ∧
      (d.eval cache).evaluations = [⟨d.evaluator, d.input⟩] ∧
      ((d.eval cache).cache = cache ∧ (d.hash = none ∨ d.evaluator.apply d.input = none) ∨
        ∃ hash value, d.hash = some hash ∧ d.evaluator.apply d.input = some value ∧
          (d.eval cache).cache = cache.insert hash value)) := by
  cases hd : d.hash with
  | none =>
    refine .inr ⟨nofun, ?_⟩
    unfold eval
    simp only [hd, Option.bind_none]
    split <;> simp_all
  | some hash =>
    cases hc : cache.get? hash with
    | some value => exact .inl ⟨hash, value, rfl, hc, eval_of_cached hd hc⟩
    | none =>
      refine .inr ⟨fun _ h => Option.some.inj h ▸ hc, ?_⟩
      unfold eval
      simp only [hd, Option.bind_some, hc]
      split <;> simp_all

/-! ## Hosts -/

namespace Host

/-- The value that the host holds. -/
def held (h : Host) : Option Json :=
  match h.content with
  | .frozen value => value
  | .unset => none

/-- There is nothing to be computed: the content is set, or nothing is deferred. -/
def IsFinal (h : Host) : Prop := h.content = .unset → h.deferred = none

/-- The two ways of a look. -/
theorem look_cases (h : Host) (cache : Table Json) :
    (h.IsFinal ∧ h.look cache = (h, ⟨h.held, cache, []⟩)) ∨
      ∃ d, h.content = .unset ∧ h.deferred = some d ∧
        h.look cache = (h.setContent (d.eval cache).value, d.eval cache) := by
  unfold IsFinal look held
  cases hc : h.content with
  | frozen value => exact .inl ⟨nofun, rfl⟩
  | unset =>
    cases hd : h.deferred with
    | none => exact .inl ⟨fun _ => rfl, rfl⟩
    | some d => exact .inr ⟨d, rfl, rfl, rfl⟩

theorem isFinal_setContent (h : Host) (value : Option Json) : (h.setContent value).IsFinal :=
  nofun

/-- Of a host that is final a look tells what it holds, and changes nothing. -/
theorem look_of_isFinal {h : Host} (hf : h.IsFinal) (cache : Table Json) :
    h.look cache = (h, ⟨h.held, cache, []⟩) := by
  obtain ⟨-, he⟩ | ⟨d, hc, hd, -⟩ := h.look_cases cache
  · exact he
  · cases (hf hc).symm.trans hd

/-- A look leaves a host final. -/
theorem isFinal_look (h : Host) (cache : Table Json) : (h.look cache).1.IsFinal := by
  obtain ⟨hf, he⟩ | ⟨d, -, -, he⟩ := h.look_cases cache <;> rw [he]
  · exact hf
  · exact h.isFinal_setContent _

/-- What a look finds is held then. -/
theorem held_look (h : Host) (cache : Table Json) : (h.look cache).1.held = (h.look cache).2.value := by
  obtain ⟨-, he⟩ | ⟨d, -, -, he⟩ := h.look_cases cache <;> rw [he]
  rfl

theorem type_look (h : Host) (cache : Table Json) : (h.look cache).1.type = h.type := by
  obtain ⟨-, he⟩ | ⟨d, -, -, he⟩ := h.look_cases cache <;> rw [he]
  rfl

theorem deferred_look (h : Host) (cache : Table Json) : (h.look cache).1.deferred = h.deferred := by
  obtain ⟨-, he⟩ | ⟨d, -, -, he⟩ := h.look_cases cache <;> rw [he]
  rfl

/-- A look takes nothing out of the cache. -/
theorem sub_look (h : Host) (cache : Table Json) : cache.Sub (h.look cache).2.cache := by
  intro key value hk
  obtain ⟨-, he⟩ | ⟨d, -, -, he⟩ := h.look_cases cache <;> rw [he]
  · exact hk
  · exact Deferred.get?_eval hk

/-- Where all that a look at a host has cached is still there, a look finds the same. -/
theorem Sound.look_eq {h : Host} (hs : h.Sound) {cache kept : Table Json}
    (hk : (h.look cache).2.cache.Sub kept) :
    (h.look kept).1 = (h.look cache).1 ∧ (h.look kept).2.value = (h.look cache).2.value := by
  obtain ⟨hf, -⟩ | ⟨d, hc, hd, he⟩ := h.look_cases cache
  · rw [look_of_isFinal hf, look_of_isFinal hf]
    exact ⟨rfl, rfl⟩
  · obtain ⟨key, value, hkey, hvalue, hcached⟩ := (hs.deferred d hd).eval cache
    rw [he] at hk
    have hkept : d.eval kept = ⟨some value, kept, []⟩ := Deferred.eval_of_cached hkey (hk hcached)
    have hlook : h.look kept = (h.setContent (some value), ⟨some value, kept, []⟩) := by
      unfold Host.look
      simp only [hc, hd, hkept]
    rw [hlook, he, hvalue]
    exact ⟨rfl, rfl⟩

/-- `h` is `g`, or what a look has made of it; what was cached then is among what is kept. -/
def Onward (kept : Table Json) (g h : Host) : Prop :=
  h = g ∨ ∃ cache, h = (g.look cache).1 ∧ (g.look cache).2.cache.Sub kept

namespace Onward

variable {kept : Table Json} {g h : Host}

theorem mono {more : Table Json} (hgh : Onward kept g h) (hsub : kept.Sub more) : Onward more g h :=
  hgh.imp_right fun ⟨cache, he, hc⟩ => ⟨cache, he, fun _ _ hk => hsub (hc hk)⟩

/-- What is final stays as it is. -/
theorem eq (hgh : Onward kept g h) (hf : g.IsFinal) : h = g := by
  rcases hgh with rfl | ⟨cache, rfl, -⟩
  · rfl
  · rw [look_of_isFinal hf]

theorem trans {k : Host} (hgh : Onward kept g h) (hhk : Onward kept h k) : Onward kept g k := by
  rcases hgh with rfl | ⟨cache, rfl, hc⟩
  · exact hhk
  · rw [hhk.eq (g.isFinal_look cache)]
    exact .inr ⟨cache, rfl, hc⟩

end Onward

end Host

/-! ## States -/

namespace ExecState

variable {s : ExecState} {place : Nat} {h : Host}

/-- A look at a place is a look at the host there. -/
theorem look_of_host? (hh : s.host? place = some h) :
    s.look place = ((h.look s.cache).2.value,
      { s.noteLookup (h.look s.cache).2 with hosts := s.hosts.set place (h.look s.cache).1 }) := by
  unfold look
  simp only [hh]

/-- What a look at a place leaves: the host there looked at, and the others as they
are. -/
theorem host?_look (s : ExecState) (place other : Nat) :
    (s.look place).2.host? other =
      if place = other then (s.host? other).map fun h => (h.look s.cache).1 else s.host? other := by
  cases hh : s.host? place with
  | none =>
    unfold look
    simp only [hh]
    split
    · rename_i he
      rw [← he, hh]
      rfl
    · rfl
  | some h =>
    have hid : place < s.hosts.length := (List.getElem?_eq_some_iff.1 hh).1
    rw [look_of_host? hh]
    refine (s.host?_set place _ other hid).trans ?_
    split
    · rename_i he
      rw [← he, hh]
      rfl
    · rfl

/-- A look at a host that is final changes nothing. -/
theorem look_of_isFinal (hh : s.host? place = some h) (hf : h.IsFinal) : s.look place = (h.held, s) := by
  have hset : s.hosts.set place h = s.hosts := by
    obtain ⟨hlt, rfl⟩ := List.getElem?_eq_some_iff.1 hh
    exact List.set_getElem_self hlt
  rw [look_of_host? hh, h.look_of_isFinal hf]
  simp only [noteLookup, hset, List.append_nil]

/-- The text of the host at a place is that of what a look finds. -/
theorem lookText_of_host? (hh : s.host? place = some h) :
    s.lookText place = ((h.look s.cache).2.value.map (Host.textOf h.type), (s.look place).2) := by
  have hhost := host?_look s place place
  rw [if_pos rfl, hh, Option.map_some] at hhost
  have hvalue := congrArg Prod.fst (look_of_host? hh)
  refine Prod.ext ?_ rfl
  show ((s.look place).1.bind fun value =>
    ((s.look place).2.host? place).map fun g => Host.textOf g.type value) = _
  rw [hhost, hvalue]
  simp only [Option.map_some, Host.type_look]
  cases (h.look s.cache).2.value <;> rfl

end ExecState

/-- From `s` to `t` hosts may have been looked at and others bound, and the cache may have grown. -/
structure ExecState.Onward (s t : ExecState) : Prop where
  cache : s.cache.Sub t.cache
  hosts : ∀ {id g}, s.host? id = some g → ∃ h, t.host? id = some h ∧ Host.Onward t.cache g h

namespace ExecState.Onward

variable {s t : ExecState}

theorem refl (s : ExecState) : Onward s s := ⟨fun _ _ h => h, fun {_ g} h => ⟨g, h, .inl rfl⟩⟩

theorem trans {u : ExecState} (h : Onward s t) (h' : Onward t u) : Onward s u := by
  refine ⟨fun _ _ hk => h'.cache (h.cache hk), fun {id g} hg => ?_⟩
  obtain ⟨k, hk, hgk⟩ := h.hosts hg
  obtain ⟨l, hl, hkl⟩ := h'.hosts hk
  exact ⟨l, hl, (hgk.mono h'.cache).trans hkl⟩

/-- Only the hosts and the cache matter, and the cache may grow. -/
theorem of_eq {u : ExecState} (h : Onward s t) (hhosts : u.hosts = t.hosts) (hcache : t.cache.Sub u.cache) :
    Onward s u := by
  refine h.trans ⟨hcache, fun {id g} hg => ⟨g, ?_, .inl rfl⟩⟩
  rwa [host?, hhosts]

theorem warn (message : String) (h : Onward s t) : Onward s (t.warn message) := h.of_eq rfl fun _ _ hk => hk

theorem fatal (message : String) (h : Onward s t) : Onward s (t.fatal message) :=
  h.of_eq rfl fun _ _ hk => hk

theorem next (h : Onward s t) : Onward s t.next := h.of_eq rfl fun _ _ hk => hk

theorem last (h : Onward s t) : Onward s t.last := h.of_eq rfl fun _ _ hk => hk

theorem bind (g : Host) (h : Onward s t) : Onward s (t.bind g) := by
  refine h.trans ⟨fun _ _ hk => hk, fun {id g'} hg => ⟨g', ?_, .inl rfl⟩⟩
  have hid : id < t.hosts.length := (List.getElem?_eq_some_iff.1 hg).1
  exact (List.getElem?_append_left hid).trans hg

theorem look (id : Nat) (h : Onward s t) : Onward s (t.look id).2 := by
  refine h.trans ?_
  unfold ExecState.look
  cases hg : t.host? id with
  | none => exact refl t
  | some g =>
    have hid : id < t.hosts.length := (List.getElem?_eq_some_iff.1 hg).1
    refine ⟨g.sub_look t.cache, fun {id' g'} hg' => ?_⟩
    have hset := t.host?_set id (g.look t.cache).1 id' hid
    by_cases he : id = id'
    · subst he
      obtain rfl := Option.some.inj (hg.symm.trans hg')
      exact ⟨_, hset.trans (if_pos rfl), .inr ⟨t.cache, rfl, fun _ _ hk => hk⟩⟩
    · exact ⟨g', (hset.trans (if_neg he)).trans hg', .inl rfl⟩

/-- What rules do to a state goes onward. -/
theorem acts (h : Onward s t) {u : ExecState} (ha : Acts t u) : Onward s u := by
  induction ha with
  | refl => exact h
  | look id _ ih => exact ih.look id
  | warn message _ ih => exact ih.warn message
  | save name saved _ ih => exact ih.of_eq rfl fun _ _ hk => hk
  | eval d _ ih => exact ih.of_eq rfl fun _ _ hk => Deferred.get?_eval hk

end ExecState.Onward

/-! ## Steps -/

/-- A step of the standard rules goes onward. -/
theorem onward_runStep {n m : Node} {s t : ExecState}
    (hr : runStep Registry.standard.execution n s = .ok (m, t)) : s.Onward t := by
  obtain ⟨u, v, hacts, hv, hbound⟩ := acts_runStep hr
  have honward : s.Onward v := by
    have hrefl := ExecState.Onward.refl s
    obtain rfl | ⟨message, rfl⟩ := hv
    · exact hrefl.acts hacts
    · exact (hrefl.acts hacts).fatal message
  obtain ⟨-, rfl⟩ | ⟨-, g, -, -, rfl⟩ := hbound
  · exact honward
  · exact honward.bind g

end Evomark
