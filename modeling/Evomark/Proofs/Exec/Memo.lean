import Evomark.Proofs.Exec.Freeze
/-!
# Reads of hosts that share a cache

Hosts are read for their contents and for their texts, in any order and through one cache. A `Reading`
is one such read with what came out of it and what it computed. The first reading of a host makes it
final, and the first evaluation of a hash that yields a value fills the cache, so that neither has to be
done again: this is shown for one read from any state, and for a sequence of reads by induction over
it (`readings_of_host?`, `length_computed_place`, `countP_computed_hash`).
-/

namespace Evomark

/-! ## Reads -/

/-- A read of the host at a place. -/
inductive Read
  | content (place : Nat)
  | text (place : Nat)

/-- What comes out of a read. -/
inductive Answer
  | content (value : Option Json)
  | text (text : Option String)

namespace Read

/-- The place that is read. -/
def place : Read → Nat
  | content place => place
  | text place => place

/-- What a read gives of a host of a type that holds a value. -/
def answer (r : Read) (type : DataType) (value : Option Json) : Answer :=
  match r with
  | content _ => .content value
  | text _ => .text (value.map (Host.textOf type))

end Read

/-- The evaluation yields a value. -/
def Evaluation.value? (x : Evaluation) : Option Json := x.evaluator.apply x.input

/-- A read with the hash of the host at its place, if it has one, what came out, and the evaluations
that it took. -/
structure Reading where
  read : Read
  hash : Option String
  answer : Answer
  evaluations : List Evaluation

namespace ExecState

/-- What the host at a place defers. -/
def deferredAt (s : ExecState) (place : Nat) : Option Deferred := (s.host? place).bind (·.deferred)

/-- The hash under which the content of the host at a place is cached. -/
def hashAt (s : ExecState) (place : Nat) : Option String := (s.deferredAt place).bind (·.hash)

/-- What a look at a place finds and how. -/
def lookupAt (s : ExecState) (place : Nat) : Lookup :=
  ((s.host? place).map fun h => (h.look s.cache).2).getD ⟨none, s.cache, []⟩

/-- One read. -/
def read (s : ExecState) : Read → Answer × ExecState
  | .content place => ((.content (s.look place).1), (s.look place).2)
  | .text place => ((.text (s.lookText place).1), (s.lookText place).2)

/-- One read, with what it takes. -/
def reading (s : ExecState) (r : Read) : Reading :=
  ⟨r, s.hashAt r.place, (s.read r).1, (s.lookupAt r.place).evaluations⟩

/-- The state after some reads. -/
def readAll (s : ExecState) (reads : List Read) : ExecState := reads.foldl (fun s r => (s.read r).2) s

/-- Some reads in order, each in the state that those before it leave. -/
def readings (s : ExecState) : List Read → List Reading
  | [] => []
  | r :: rest => s.reading r :: readings (s.read r).2 rest

end ExecState

/-- A host as it is handed over: its name and type, and how its content is provided. -/
structure Provided where
  name : String
  type : DataType
  provision : Provision
  input : Json
  hash : String

/-- The host before it is read. -/
def Provided.host (p : Provided) : Host :=
  Host.provide { name := p.name, type := p.type } p.provision p.input p.hash

/-- The host tells whether it is frozen with a value. -/
def Host.Tells (h : Host) : Prop := h.defined = true ↔ ∃ value, h.content = .frozen (some value)

/-! ## One read -/

theorem Host.tells_setContent (h : Host) (value : Option Json) : (h.setContent value).Tells := by
  cases value <;> simp [Host.setContent, Host.Tells]

theorem Host.Tells.look {h : Host} (ht : h.Tells) (cache : Table Json) : (h.look cache).1.Tells := by
  obtain ⟨-, he⟩ | ⟨d, -, -, he⟩ := h.look_cases cache <;> rw [he]
  · exact ht
  · exact h.tells_setContent _

theorem Provided.tells_host (p : Provided) : p.host.Tells := by
  unfold Provided.host Host.provide
  cases p.provision with
  | untouched | deferred => simp [Host.Tells, Host.setDeferred]
  | nothing | given => exact Host.tells_setContent _ _

namespace ExecState

variable {s : ExecState} {place : Nat} {h : Host}

theorem lookupAt_of_host? (hh : s.host? place = some h) : s.lookupAt place = (h.look s.cache).2 := by
  rw [lookupAt, hh]
  rfl

/-- The state after a read is that after a look. -/
theorem state_read (s : ExecState) (r : Read) : (s.read r).2 = (s.look r.place).2 := by
  cases r <;> rfl

theorem cache_look (s : ExecState) (place : Nat) : (s.look place).2.cache = (s.lookupAt place).cache := by
  unfold look lookupAt
  cases s.host? place <;> rfl

theorem evaluations_look (s : ExecState) (place : Nat) :
    (s.look place).2.evaluations = s.evaluations ++ (s.lookupAt place).evaluations := by
  unfold look lookupAt
  cases s.host? place <;> simp [noteLookup]

/-- Looks change nothing about what is deferred. -/
theorem deferredAt_look (s : ExecState) (place other : Nat) :
    (s.look place).2.deferredAt other = s.deferredAt other := by
  unfold deferredAt
  rw [host?_look]
  split
  · cases s.host? other with
    | none => rfl
    | some h => simp [Host.deferred_look]
  · rfl

/-- What a read gives is what a look at its place finds. -/
theorem answer_read (r : Read) (hh : s.host? r.place = some h) :
    (s.read r).1 = r.answer h.type (h.look s.cache).2.value := by
  cases r with
  | content place => exact congrArg (fun found => Answer.content found.1) (look_of_host? hh)
  | text place => exact congrArg (fun found => Answer.text found.1) (lookText_of_host? hh)

/-- A look computes nothing, or what the host at the place defers, if that is not cached. What it adds to
the cache is the value computed, under the hash of the place. -/
theorem lookupAt_cases (s : ExecState) (place : Nat) :
    ((s.lookupAt place).evaluations = [] ∧ (s.lookupAt place).cache = s.cache) ∨
    ∃ d x, s.deferredAt place = some d ∧ x = ⟨d.evaluator, d.input⟩ ∧ (s.lookupAt place).evaluations = [x] ∧
      (∀ hash, s.hashAt place = some hash → s.cache.get? hash = none) ∧
      ((s.lookupAt place).cache = s.cache ∧ (s.hashAt place = none ∨ x.value? = none) ∨
        ∃ hash value, s.hashAt place = some hash ∧ x.value? = some value ∧
          (s.lookupAt place).cache = s.cache.insert hash value) := by
  cases hh : s.host? place with
  | none =>
    rw [lookupAt, hh]
    exact .inl ⟨rfl, rfl⟩
  | some h =>
    rw [lookupAt_of_host? hh]
    obtain ⟨-, he⟩ | ⟨d, -, hd, he⟩ := h.look_cases s.cache <;> rw [he]
    · exact .inl ⟨rfl, rfl⟩
    · have hdeferred : s.deferredAt place = some d := by rw [deferredAt, hh, Option.bind_some, hd]
      rw [hashAt, hdeferred, Option.bind_some]
      obtain ⟨hash, value, -, -, heval⟩ | ⟨hmiss, hrun, hcache⟩ := d.eval_cases s.cache
      · rw [heval]
        exact .inl ⟨rfl, rfl⟩
      · exact .inr ⟨d, _, rfl, rfl, hrun, hmiss, hcache⟩

/-- Where the hash of a place is cached nothing is computed. -/
theorem lookupAt_of_cached {hash : String} {value : Json} (hp : s.hashAt place = some hash)
    (hc : s.cache.get? hash = some value) : (s.lookupAt place).evaluations = [] := by
  obtain ⟨hrun, -⟩ | ⟨d, x, -, -, -, hmiss, -⟩ := s.lookupAt_cases place
  · exact hrun
  · cases (hmiss hash hp).symm.trans hc

/-! ## Sequences of reads -/

/-- A sequence of reads keeps what a look keeps. -/
theorem readAll_induct {I : ExecState → Prop} (look : ∀ {s} place, I s → I (s.look place).2)
    (reads : List Read) {s : ExecState} (h : I s) : I (s.readAll reads) := by
  induction reads generalizing s with
  | nil => exact h
  | cons r rest ih =>
    have hnext : I (s.read r).2 := state_read s r ▸ look r.place h
    exact ih hnext

/-- Nothing that is cached is lost. -/
theorem sub_readAll (s : ExecState) (reads : List Read) : s.cache.Sub (s.readAll reads).cache :=
  (readAll_induct (fun place h => h.look place) reads (.refl s) : s.Onward (s.readAll reads)).cache

/-- What was computed in all is what the readings have computed. -/
theorem evaluations_readAll (reads : List Read) (s : ExecState) :
    (s.readAll reads).evaluations = s.evaluations ++ (s.readings reads).flatMap (·.evaluations) := by
  induction reads generalizing s with
  | nil => simp [readAll, readings]
  | cons r rest ih =>
    show ((s.read r).2.readAll rest).evaluations = _
    rw [ih, state_read, evaluations_look, readings, List.flatMap_cons, List.append_assoc, state_read]
    rfl

/-! ## Answers -/

/-- A host that is final answers all reads with what it holds. -/
theorem readings_of_isFinal (reads : List Read) (hh : s.host? place = some h) (hf : h.IsFinal) :
    ∀ r ∈ s.readings reads, r.read.place = place → r.answer = r.read.answer h.type h.held := by
  induction reads generalizing s with
  | nil => exact fun r hr => absurd hr List.not_mem_nil
  | cons r rest ih =>
    have hlook := h.look_of_isFinal hf s.cache
    have hnext : (s.read r).2.host? place = some h := by
      rw [state_read, host?_look]
      split
      · rw [hh, Option.map_some, hlook]
      · exact hh
    refine List.forall_mem_cons.2 ⟨fun hr => ?_, ih hnext⟩
    refine (answer_read r (hr ▸ hh)).trans ?_
    rw [hlook]
    rfl

/-- All reads of a host are answered with one value. -/
theorem readings_of_host? (reads : List Read) (hh : s.host? place = some h) :
    ∃ value, ∀ r ∈ s.readings reads, r.read.place = place → r.answer = r.read.answer h.type value := by
  induction reads generalizing s with
  | nil => exact ⟨none, fun r hr => absurd hr List.not_mem_nil⟩
  | cons r rest ih =>
    have hnext := host?_look s r.place place
    rw [hh] at hnext
    by_cases hr : r.place = place
    · rw [if_pos hr, ← state_read] at hnext
      have hrest := readings_of_isFinal rest hnext (h.isFinal_look s.cache)
      rw [Host.held_look, Host.type_look] at hrest
      exact ⟨_, List.forall_mem_cons.2 ⟨fun _ => answer_read r (hr ▸ hh), hrest⟩⟩
    · rw [if_neg hr, ← state_read] at hnext
      obtain ⟨value, hrest⟩ := ih hnext
      exact ⟨value, List.forall_mem_cons.2 ⟨fun hp => absurd hp hr, hrest⟩⟩

/-! ## Evaluations -/

/-- A reading has the hash of the host at its place, and computes nothing but what that host defers. -/
theorem deferredAt_readings (reads : List Read) (s : ExecState) :
    ∀ r ∈ s.readings reads, r.hash = (s.deferredAt r.read.place).bind (·.hash) ∧
      ∀ x ∈ r.evaluations, ∃ d, s.deferredAt r.read.place = some d ∧ x = ⟨d.evaluator, d.input⟩ := by
  induction reads generalizing s with
  | nil => exact fun r hr => absurd hr List.not_mem_nil
  | cons r rest ih =>
    have hnext : (s.read r).2.deferredAt = s.deferredAt := by
      funext other
      rw [state_read, deferredAt_look]
    refine List.forall_mem_cons.2 ⟨⟨rfl, fun x hx => ?_⟩, hnext ▸ ih (s.read r).2⟩
    have hx : x ∈ (s.lookupAt r.place).evaluations := hx
    obtain ⟨hrun, -⟩ | ⟨d, x', hd, rfl, hrun, -⟩ := s.lookupAt_cases r.place <;> rw [hrun] at hx
    · exact absurd hx List.not_mem_nil
    · exact ⟨d, hd, List.mem_singleton.1 hx⟩

/-- What the readings for which `p` holds have computed. -/
def computed (s : ExecState) (reads : List Read) (p : Reading → Bool) : List Evaluation :=
  ((s.readings reads).filter p).flatMap (·.evaluations)

theorem computed_cons (s : ExecState) (r : Read) (rest : List Read) (p : Reading → Bool) :
    s.computed (r :: rest) p =
      (if p (s.reading r) then (s.lookupAt r.place).evaluations else []) ++ (s.read r).2.computed rest p := by
  unfold computed
  rw [readings, List.filter_cons]
  split <;> rfl

/-- Where no read of a kind has anything to compute, and looks keep that so, no sequence of reads computes
anything for reads of the kind. -/
theorem computed_eq_nil {I : ExecState → Prop} {p : Reading → Bool}
    (look : ∀ {s} place, I s → I (s.look place).2)
    (idle : ∀ {s} r, I s → p (s.reading r) = true → (s.lookupAt r.place).evaluations = [])
    (reads : List Read) {s : ExecState} (h : I s) : s.computed reads p = [] := by
  induction reads generalizing s with
  | nil => rfl
  | cons r rest ih =>
    have hnext : I (s.read r).2 := state_read s r ▸ look r.place h
    rw [computed_cons, ih hnext, List.append_nil]
    split
    · rename_i hp
      exact idle r h hp
    · rfl

/-- Nothing is left to be computed at the place. -/
def IsFinalAt (s : ExecState) (place : Nat) : Prop := ∀ h, s.host? place = some h → h.IsFinal

theorem isFinalAt_look (s : ExecState) (place : Nat) : (s.look place).2.IsFinalAt place := by
  intro h hh
  rw [host?_look, if_pos rfl] at hh
  obtain ⟨g, -, rfl⟩ := Option.map_eq_some_iff.1 hh
  exact g.isFinal_look s.cache

theorem IsFinalAt.look (hf : s.IsFinalAt place) (other : Nat) : (s.look other).2.IsFinalAt place := by
  by_cases ho : other = place
  · exact ho ▸ s.isFinalAt_look other
  · intro h hh
    rw [host?_look, if_neg ho] at hh
    exact hf h hh

theorem lookupAt_of_isFinalAt (hf : s.IsFinalAt place) : (s.lookupAt place).evaluations = [] := by
  cases hh : s.host? place with
  | none =>
    rw [lookupAt, hh]
    rfl
  | some h => rw [lookupAt_of_host? hh, h.look_of_isFinal (hf h hh)]

/-- A host is computed at most once. -/
theorem length_computed_place (reads : List Read) (s : ExecState) (place : Nat) :
    (s.computed reads fun r => r.read.place == place).length ≤ 1 := by
  induction reads generalizing s with
  | nil => exact Nat.zero_le 1
  | cons r rest ih =>
    rw [computed_cons]
    by_cases hr : r.place = place
    · have hfinal : (s.read r).2.IsFinalAt place := state_read s r ▸ hr ▸ s.isFinalAt_look r.place
      have hrest : (s.read r).2.computed rest (fun r => r.read.place == place) = [] := by
        refine computed_eq_nil (I := fun s => s.IsFinalAt place) (fun {s} other h => h.look other)
          (fun r' h hp => ?_) rest hfinal
        rw [show r'.place = place by simpa [reading] using hp]
        exact lookupAt_of_isFinalAt h
      rw [hrest, List.append_nil]
      obtain ⟨hrun, -⟩ | ⟨d, x, -, -, hrun, -⟩ := s.lookupAt_cases r.place <;> rw [hrun] <;> split <;> simp
    · rw [if_neg (by simpa [reading] using hr), List.nil_append]
      exact ih _

/-- What is cached under a hash is not computed any more. -/
theorem computed_of_cached (reads : List Read) {hash : String} {value : Json}
    (hc : s.cache.get? hash = some value) : s.computed reads (fun r => r.hash == some hash) = [] := by
  refine computed_eq_nil (I := fun s => s.cache.get? hash = some value) (fun {s} place h => ?_)
    (fun r h hp => ?_) reads hc
  · exact ((Onward.refl s).look place).cache h
  · exact lookupAt_of_cached (by simpa [reading] using hp) h

/-- For a hash a value is computed at most once, whichever hosts have it. -/
theorem countP_computed_hash (reads : List Read) (s : ExecState) (hash : String) :
    (s.computed reads fun r => r.hash == some hash).countP (·.value?.isSome) ≤ 1 := by
  induction reads generalizing s with
  | nil => exact Nat.zero_le 1
  | cons r rest ih =>
    have hnone : ∀ {xs : List Evaluation}, xs.countP (·.value?.isSome) = 0 →
        (xs ++ (s.read r).2.computed rest fun r => r.hash == some hash).countP (·.value?.isSome) ≤ 1 := by
      intro xs h
      rw [List.countP_append, h, Nat.zero_add]
      exact ih _
    rw [computed_cons]
    split
    · rename_i hp
      have hp : s.hashAt r.place = some hash := by simpa [reading] using hp
      obtain ⟨hrun, -⟩ | ⟨d, x, -, -, hrun, -, hcache⟩ := s.lookupAt_cases r.place
      · rw [hrun]
        exact hnone rfl
      · rw [hrun]
        obtain ⟨-, hno | hno⟩ | ⟨hash', value, hp', hvalue, hcache⟩ := hcache
        · cases hp.symm.trans hno
        · exact hnone (by simp [hno])
        · obtain rfl := Option.some.inj (hp.symm.trans hp')
          have hget : (s.read r).2.cache.get? hash = some value := by
            rw [state_read, cache_look, hcache, Table.get?_insert, if_pos rfl]
          rw [computed_of_cached rest hget]
          simp [hvalue]
    · exact hnone rfl

/-- An entry of the cache that was not there is the value of an evaluation for its hash. -/
theorem computed_of_new (reads : List Read) (s : ExecState) {hash : String} {value : Json}
    (h : (s.readAll reads).cache.get? hash = some value) : s.cache.get? hash = some value ∨
      ∃ r ∈ s.readings reads, r.hash = some hash ∧ ∃ x ∈ r.evaluations, x.value? = some value := by
  induction reads generalizing s with
  | nil => exact .inl h
  | cons r rest ih =>
    obtain hget | ⟨r', hr', hfound⟩ := ih (s.read r).2 h
    · rw [state_read, cache_look] at hget
      obtain ⟨-, hsame⟩ | ⟨d, x, -, -, hrun, -, ⟨hsame, -⟩ | ⟨hash', value', hp, hvalue, hcache⟩⟩ :=
        s.lookupAt_cases r.place
      · exact .inl (hsame ▸ hget)
      · exact .inl (hsame ▸ hget)
      · rw [hcache, Table.get?_insert] at hget
        split at hget
        · rename_i he
          have hx : x ∈ (s.lookupAt r.place).evaluations := hrun ▸ List.mem_singleton_self x
          exact .inr ⟨s.reading r, .head _, he ▸ hp, x, hx, hvalue.trans hget⟩
        · exact .inl hget
    · exact .inr ⟨r', .tail _ hr', hfound⟩

end ExecState

/-! ## A family of hosts -/

theorem Provided.type_host (p : Provided) : p.host.type = p.type := by
  unfold Provided.host Host.provide
  cases p.provision <;> rfl

namespace ExecState

/-- A sequence of reads can be divided anywhere. -/
theorem readAll_take_drop (s : ExecState) (reads : List Read) (k : Nat) :
    (s.readAll (reads.take k)).readAll (reads.drop k) = s.readAll reads := by
  unfold readAll
  rw [← List.foldl_append, List.take_append_drop]

/-- Looks keep all hosts telling whether they are frozen with a value. -/
theorem tells_look {s : ExecState} (hs : ∀ h ∈ s.hosts, h.Tells) (place : Nat) :
    ∀ h ∈ (s.look place).2.hosts, h.Tells := by
  intro h hh
  obtain ⟨id, hid⟩ := List.mem_iff_getElem?.1 hh
  have hlook := s.host?_look place id
  rw [host?, hid] at hlook
  split at hlook
  · obtain ⟨g, hg, rfl⟩ := Option.map_eq_some_iff.1 hlook.symm
    exact (hs g (List.mem_of_getElem? hg)).look s.cache
  · exact hs h (List.mem_of_getElem? hlook.symm)

end ExecState

/-- Whatever the cache holds, however the contents of some hosts are provided and in whatever order they
are read: all reads of a host are answered with one value; a host is computed at most once, and for
one hash a value is computed at most once; nothing else is computed; what is cached stays, and what is
added is a value that was computed for its hash; and each host tells whether it is frozen with a value.
The last holds after every read, since any first part of a sequence of reads is one as well. -/
theorem readings_memoised (cache : Table Json) (family : List Provided) (reads : List Read) :
    let start : ExecState := { cache, hosts := family.map Provided.host }
    let log := start.readings reads
    let last := start.readAll reads
    (∀ place p, family[place]? = some p →
      ∃ value, ∀ r ∈ log, r.read.place = place → r.answer = r.read.answer p.type value) ∧
    (∀ place, ((log.filter (·.read.place == place)).flatMap (·.evaluations)).length ≤ 1) ∧
    (∀ hash, ((log.filter (·.hash == some hash)).flatMap (·.evaluations)).countP (·.value?.isSome) ≤ 1) ∧
    (∀ r ∈ log, r.hash = ((family[r.read.place]?).bind (·.host.deferred)).bind (·.hash) ∧
      ∀ x ∈ r.evaluations, ∃ d, (family[r.read.place]?).bind (·.host.deferred) = some d ∧
        x = ⟨d.evaluator, d.input⟩) ∧
    last.evaluations = log.flatMap (·.evaluations) ∧
    (∀ k, (start.readAll (reads.take k)).cache.Sub last.cache) ∧
    (∀ hash value, last.cache.get? hash = some value → cache.get? hash = some value ∨
      ∃ r ∈ log, r.hash = some hash ∧ ∃ x ∈ r.evaluations, x.value? = some value) ∧
    ∀ h ∈ last.hosts, h.defined = true ↔ ∃ value, h.content = .frozen (some value) := by
  intro start log last
  have hhost : ∀ place, start.host? place = (family[place]?).map Provided.host := fun _ => List.getElem?_map
  have hdeferred : ∀ place, start.deferredAt place = (family[place]?).bind (·.host.deferred) := by
    intro place
    rw [ExecState.deferredAt, hhost, Option.bind_map]
    rfl
  refine ⟨fun place p hp => ?_, start.length_computed_place reads, start.countP_computed_hash reads,
    fun r hr => hdeferred r.read.place ▸ start.deferredAt_readings reads r hr,
    start.evaluations_readAll reads, fun k => ?_, fun hash value => start.computed_of_new reads, ?_⟩
  · have hh : start.host? place = some p.host := by rw [hhost, hp, Option.map_some]
    exact p.type_host ▸ ExecState.readings_of_host? reads hh
  · rw [show last = _ from (start.readAll_take_drop reads k).symm]
    exact ExecState.sub_readAll _ _
  · have htells : ∀ h ∈ start.hosts, h.Tells := List.forall_mem_map.2 fun p _ => p.tells_host
    exact ExecState.readAll_induct (I := fun s => ∀ h ∈ s.hosts, h.Tells)
      (fun place hs => ExecState.tells_look hs place) reads htells

end Evomark
