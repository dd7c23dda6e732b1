import Evomark.Proofs.Exec.Agree
/-!
# Deferring and caching change nothing

A pass under the standard rules gives what it would give if `upper` computed every text at once and
there were no cache (`exec_eq_execEager`): the same document, the same outcome, the same saved
variables and the same value and text under every name. Its cache may hold what any earlier passes
have put there, if SHA-3 gives different hashes to the different texts hashed in all of them.
-/

namespace Evomark

/-! ## Walks -/

/-- What a walk made of some nodes on both sides. -/
structure Walk.Agrees (known : List String) (w v : Walk) : Prop where
  nodes : v.nodes = w.nodes
  outcome : v.outcome = w.outcome
  state : w.state.Agrees known v.state

/-- The texts hashed in a walk are known. -/
def HashesKnown (known : List String) (ns : List Node) (s : ExecState) : Prop :=
  ∀ step ∈ stepsOf Registry.standard.execution ns s,
    ∀ x ∈ stepHashes Registry.standard.execution step.1 step.2, x ∈ known

/-- A walk does the same on both sides, if the texts hashed in it are known. -/
theorem walk_agrees {known : List String} (hno : NoCollision known) (ns : List Node) (s : ExecState) :
    HashesKnown known ns s → ∀ t, s.Agrees known t →
      (runNodes Registry.standard.execution ns s).Agrees known
        (walkWith (stepWith ExecRule.runEager Registry.standard.execution) ns t) := by
  refine runNodes_induct Registry.standard.execution
    (motive := fun ns s w => HashesKnown known ns s → ∀ t, s.Agrees known t → w.Agrees known
      (walkWith (stepWith ExecRule.runEager Registry.standard.execution) ns t))
    ?nil ?marker ?failed ?halted ?executed ?inside ?ended ns s
  case nil =>
    intro s _ t a
    rw [walkWith]
    exact ⟨rfl, rfl, a⟩
  case marker =>
    intro n rest s hm ih hknown t a
    rw [walkWith_of_marker hm]
    rw [HashesKnown, stepsOf_of_marker hm] at hknown
    exact ih hknown t a
  case failed =>
    intro n rest s e hn hm hr hknown t a
    rw [HashesKnown, stepsOf_of_error hn hm hr] at hknown
    have hstep := a.stepWith hno n (hknown _ (List.mem_singleton.2 rfl))
    rw [hr] at hstep
    rw [walkWith_of_error hn hm hstep.of_error]
    exact ⟨rfl, rfl, a⟩
  case halted =>
    intro n rest s m u hn hm hr hu hknown t a
    rw [HashesKnown, stepsOf_of_halted hn hm hr hu] at hknown
    have hstep := a.stepWith hno n (hknown _ (List.mem_singleton.2 rfl))
    rw [hr] at hstep
    obtain ⟨⟨m', v⟩, hr', rfl, hv⟩ := hstep.of_ok
    rw [walkWith_of_halted hn hm hr' (hv.halted.trans hu)]
    refine ⟨?_, rfl, hv.last⟩
    rw [hv.warnings]
  case executed =>
    intro n rest s m u hn hm hr hu ih hknown t a
    rw [HashesKnown, stepsOf_of_ok hn hm hr hu] at hknown
    obtain ⟨hfirst, hrest⟩ := List.forall_mem_cons.1 hknown
    have hstep := a.stepWith hno n hfirst
    rw [hr] at hstep
    obtain ⟨⟨m', v⟩, hr', rfl, hv⟩ := hstep.of_ok
    obtain ⟨hnodes, houtcome, hstate⟩ := ih hrest v.next hv.next
    rw [walkWith_of_ok hn hm hr' (hv.halted.trans hu)]
    refine ⟨?_, houtcome, hstate⟩
    rw [hv.warnings, hnodes]
  case inside =>
    intro label children rest s w hn hw ho ih ihrest hknown t a
    subst hw
    rw [HashesKnown, stepsOf_of_completed hn ho] at hknown
    obtain ⟨hinside, hbehind⟩ := List.forall_mem_append.1 hknown
    obtain ⟨hnodes, houtcome, hstate⟩ := ih hinside t a
    obtain ⟨hnodes', houtcome', hstate'⟩ := ihrest hbehind _ hstate
    rw [walkWith_of_completed hn (houtcome.trans ho)]
    exact ⟨by rw [hnodes, hnodes'], houtcome', hstate'⟩
  case ended =>
    intro label children rest s w hn hw ho ih hknown t a
    subst hw
    rw [HashesKnown, stepsOf_of_ended hn ho] at hknown
    obtain ⟨hnodes, houtcome, hstate⟩ := ih hknown t a
    have ho' : (walkWith (stepWith ExecRule.runEager Registry.standard.execution) children t).outcome ≠
        .completed := by
      rw [houtcome]
      exact ho
    rw [walkWith_of_ended hn ho']
    exact ⟨by rw [hnodes], houtcome, hstate⟩

/-! ## Passes -/

/-- What some passes have left behind. -/
structure Past where
  /-- The cache of the last one that did not fail. -/
  cache : Table Json := []
  /-- The texts that have been hashed. -/
  hashed : List String := []

/-- What is left behind after one more pass, over a document and with saved variables. -/
def Past.pass (past : Past) (document : Node) (saved : Table SavedVar) : Past :=
  let pass := Registry.standard.exec document ⟨past.cache, saved⟩
  { cache := match pass.outcome with
      | .failed _ => past.cache
      | _ => pass.state.cache
    hashed := past.hashed ++ hashedIn Registry.standard.execution document ⟨past.cache, saved⟩ }

/-- What passes leave behind that start with an empty cache. -/
def Past.of (passes : List (Node × Table SavedVar)) : Past :=
  passes.foldl (fun past (document, saved) => past.pass document saved) {}

/-- The value under a name, looked at. -/
def ExecState.valueOf (s : ExecState) (name : String) : Option Json :=
  (s.bound? name).bind fun id => (s.look id).1

/-- The text under a name, looked at. -/
def ExecState.shownOf (s : ExecState) (name : String) : Option String :=
  (s.bound? name).bind fun id => (s.lookText id).1

/-- A pass does the same on both sides. -/
theorem exec_agrees {known : List String} (hno : NoCollision known) {cache : Table Json}
    (hcache : CacheSound known cache) (document : Node) (saved : Table SavedVar)
    (hknown : ∀ x ∈ hashedIn Registry.standard.execution document ⟨cache, saved⟩, x ∈ known) :
    let lazyPass := Registry.standard.exec document ⟨cache, saved⟩
    let eagerPass := execEager Registry.standard.execution document saved
    eagerPass.document = lazyPass.document ∧ eagerPass.outcome = lazyPass.outcome ∧
      lazyPass.state.Agrees known eagerPass.state := by
  obtain ⟨label, children⟩ := document
  have hsteps : HashesKnown known children (.ofContext ⟨cache, saved⟩) := fun step hstep x hx =>
    hknown x (List.mem_flatMap.2 ⟨step, hstep, hx⟩)
  obtain ⟨hnodes, houtcome, hstate⟩ :=
    walk_agrees hno children _ hsteps _ (.ofContext hcache saved)
  refine ⟨?_, houtcome, hstate⟩
  exact congrArg (Node.mk label) hnodes

/-- Texts that have been hashed stay known to later passes. -/
theorem hashed_subset_foldl (passes : List (Node × Table SavedVar)) (past : Past) :
    ∀ x ∈ past.hashed,
      x ∈ (passes.foldl (fun past (document, saved) => past.pass document saved) past).hashed := by
  induction passes generalizing past with
  | nil => exact fun _ h => h
  | cons first rest ih => exact fun x hx => ih _ x (List.mem_append_left _ hx)

/-- A cache that passes leave behind holds results of known texts only. -/
theorem cacheSound_foldl {known : List String} (hno : NoCollision known)
    (passes : List (Node × Table SavedVar)) (past : Past) (hcache : CacheSound known past.cache)
    (hknown : ∀ x ∈ (passes.foldl (fun past (document, saved) => past.pass document saved) past).hashed,
      x ∈ known) :
    CacheSound known
      (passes.foldl (fun past (document, saved) => past.pass document saved) past).cache := by
  induction passes generalizing past with
  | nil => exact hcache
  | cons first rest ih =>
    obtain ⟨document, saved⟩ := first
    have hpass : ∀ x ∈ hashedIn Registry.standard.execution document ⟨past.cache, saved⟩, x ∈ known :=
      fun x hx => hknown x (hashed_subset_foldl rest _ x (List.mem_append_right _ hx))
    obtain ⟨-, -, hstate⟩ := exec_agrees hno hcache document saved hpass
    refine ih (past.pass document saved) ?_ hknown
    show CacheSound known (match (Registry.standard.exec document ⟨past.cache, saved⟩).outcome with
      | .failed _ => past.cache
      | _ => (Registry.standard.exec document ⟨past.cache, saved⟩).state.cache)
    split
    · exact hcache
    · exact hstate.cache

theorem cacheSound_nil (known : List String) : CacheSound known [] :=
  fun _ _ h => by simp [Table.get?] at h

/-- A pass under the standard rules gives what it would give without deferred values and without a
cache, whatever passes have filled its cache. -/
theorem exec_eq_execEager (passes : List (Node × Table SavedVar)) (document : Node)
    (saved : Table SavedVar) :
    let past := Past.of passes
    let lazyPass := Registry.standard.exec document ⟨past.cache, saved⟩
    let eagerPass := execEager Registry.standard.execution document saved
    NoCollision (past.hashed ++ hashedIn Registry.standard.execution document ⟨past.cache, saved⟩) →
      lazyPass.outcome = eagerPass.outcome ∧ lazyPass.document = eagerPass.document ∧
      lazyPass.state.saved = eagerPass.state.saved ∧ lazyPass.state.halted = eagerPass.state.halted ∧
      lazyPass.state.position = eagerPass.state.position ∧ eagerPass.state.cache = [] ∧
      ∀ name, lazyPass.state.valueOf name = eagerPass.state.valueOf name ∧
        lazyPass.state.shownOf name = eagerPass.state.shownOf name := by
  intro past lazyPass eagerPass hno
  have hcache := cacheSound_foldl hno passes {} (cacheSound_nil _)
    fun x hx => List.mem_append_left _ hx
  obtain ⟨hdocument, houtcome, hstate⟩ :=
    exec_agrees hno hcache document saved fun x hx => List.mem_append_right _ hx
  refine ⟨houtcome.symm, hdocument.symm, hstate.saved.symm, hstate.halted.symm, hstate.position.symm,
    hstate.uncached, fun name => ?_⟩
  have hbound : eagerPass.state.bound? name = lazyPass.state.bound? name := hstate.bound? name
  unfold ExecState.valueOf ExecState.shownOf
  rw [hbound]
  cases lazyPass.state.bound? name with
  | none => exact ⟨rfl, rfl⟩
  | some id =>
    exact ⟨(hstate.look hno id).1.symm, (hstate.lookText hno id).1.symm⟩

/-- The first pass caches what it computes for a use. The last one leaves the same text pending, and
whoever looks at it finds it in the cache. -/
theorem exec_eq_execEager_cached :
    let passes := [((Registry.standard.parse "%x = $upper\x7bone\x7d\n%x").document, ([] : Table SavedVar))]
    let document := (Registry.standard.parse "%y = $upper\x7bone\x7d").document
    let past := Past.of passes
    let lazyPass := Registry.standard.exec document ⟨past.cache, []⟩
    let eagerPass := execEager Registry.standard.execution document []
    NoCollision (past.hashed ++ hashedIn Registry.standard.execution document ⟨past.cache, []⟩) ∧
      past.cache.length = 1 ∧ lazyPass.state.shownOf "y" = eagerPass.state.shownOf "y" ∧
      eagerPass.state.shownOf "y" = some "ONE" := by
  intro passes document past lazyPass eagerPass
  have hhashed : past.hashed ++ hashedIn Registry.standard.execution document ⟨past.cache, []⟩ =
      [upperText "one" 0, upperText "one" 0] := by decide +kernel
  have hno : NoCollision (past.hashed ++ hashedIn Registry.standard.execution document ⟨past.cache, []⟩) := by
    rw [hhashed]
    intro a ha b hb _
    have hsame : ∀ x ∈ [upperText "one" 0, upperText "one" 0], x = upperText "one" 0 := by simp
    rw [hsame a ha, hsame b hb]
  have hpass := exec_eq_execEager passes document [] hno
  exact ⟨hno, by decide +kernel, (hpass.2.2.2.2.2.2 "y").2, by decide +kernel⟩

end Evomark
