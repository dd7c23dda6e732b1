import Evomark.Proofs.Exec.Kept
import Evomark.Proofs.Json.Value
/-!
# The values of a pass

Values come into a pass from its context, from literals, which are texts, and from the command that
reads JSON. `ValueClasses C V` says of two properties that all of these satisfy `V`, and `C` too if
they are texts or taken from the cache. Then every state of a pass under the standard rules keeps
values of `C` in its cache and of `V` elsewhere (`ExecState.Holds.runNodes`).
-/

namespace Evomark

/-- What values of a pass satisfy: `C` if they are cached, `V` in any case. -/
structure ValueClasses (C V : Json → Prop) : Prop where
  cached : ∀ {value}, C value → V value
  text : ∀ s, C (.string s)
  read : ∀ {source value}, Json.read source = .ok value → V value

/-- The content of a host, if it has one, satisfies `V`; if it is deferred, it will be a text. -/
structure Host.Holds (V : Json → Prop) (h : Host) : Prop where
  content : ∀ value, h.content = .frozen (some value) → V value
  deferred : ∀ d, h.deferred = some d → d.evaluator = .uppercaseText

/-- The cached values of a state satisfy `C`, the others `V`. -/
structure ExecState.Holds (C V : Json → Prop) (s : ExecState) : Prop where
  cache : s.cache.Holds C
  saved : s.saved.Holds fun saved => V saved.value
  hosts : ∀ h ∈ s.hosts, h.Holds V

section

variable {C V : Json → Prop} (hcv : ValueClasses C V)

/-! ## Hosts -/

theorem Host.holds_setContent {h : Host} (hh : ∀ d, h.deferred = some d → d.evaluator = .uppercaseText)
    {value : Option Json} (hv : ∀ v ∈ value, V v) : (h.setContent value).Holds V := by
  refine ⟨fun v hc => hv v ?_, hh⟩
  exact Content.frozen.inj hc

theorem Host.holds_setDeferred {h : Host} (hh : ∀ value, h.content = .frozen (some value) → V value)
    {d : Deferred} (hd : d.evaluator = .uppercaseText) : (h.setDeferred d).Holds V := by
  refine ⟨hh, fun e he => ?_⟩
  rw [← Option.some.inj he]
  exact hd

/-- What comes out of a deferred content can be cached, and the cache stays as it should be. -/
theorem Deferred.holds_eval (hcv : ValueClasses C V) {d : Deferred} (hd : d.evaluator = .uppercaseText)
    {cache : Table Json} (hc : cache.Holds C) :
    (d.eval cache).cache.Holds C ∧ ∀ v ∈ (d.eval cache).value, C v := by
  have hvalue : ∀ v ∈ d.evaluator.apply d.input, C v := by
    intro v hv
    rw [hd] at hv
    obtain ⟨text, -, rfl⟩ := Option.map_eq_some_iff.1 hv
    exact hcv.text _
  unfold Deferred.eval
  split
  · rename_i v hget
    obtain ⟨hash, -, hget⟩ := Option.bind_eq_some_iff.1 hget
    exact ⟨hc, fun w hw => Option.some.inj hw ▸ hc.of_get? hget⟩
  · simp only
    split
    · exact ⟨hc, by simp⟩
    · rename_i v hv
      have hcv : C v := hvalue v hv
      split
      · exact ⟨hc.insert _ hcv, fun w hw => Option.some.inj hw ▸ hcv⟩
      · exact ⟨hc, fun w hw => Option.some.inj hw ▸ hcv⟩

theorem Host.holds_look (hcv : ValueClasses C V) {h : Host} (hh : h.Holds V) {cache : Table Json}
    (hc : cache.Holds C) :
    (h.look cache).1.Holds V ∧ (h.look cache).2.cache.Holds C ∧ ∀ v ∈ (h.look cache).2.value, V v := by
  unfold Host.look
  split
  · rename_i value hcontent
    refine ⟨hh, hc, fun v hv => hh.content v ?_⟩
    rw [hcontent, show value = some v from hv]
  · split
    · exact ⟨hh, hc, by simp⟩
    · rename_i d hd
      obtain ⟨hcache, hvalue⟩ := d.holds_eval hcv (hh.deferred d hd) hc
      exact ⟨holds_setContent hh.deferred fun v hv => hcv.cached (hvalue v hv), hcache,
        fun v hv => hcv.cached (hvalue v hv)⟩

/-! ## States -/

namespace ExecState.Holds

variable {s : ExecState}

theorem ofContext {ctx : Context} (hcache : ctx.cache.Holds C)
    (hsaved : ctx.saved.Holds fun saved => V saved.value) : (ExecState.ofContext ctx).Holds C V :=
  ⟨hcache, hsaved, fun _ h => nomatch h⟩

theorem next (h : s.Holds C V) : s.next.Holds C V := ⟨h.cache, h.saved, h.hosts⟩

theorem last (h : s.Holds C V) : s.last.Holds C V := ⟨h.cache, h.saved, h.hosts⟩

theorem warn (h : s.Holds C V) (message : String) : (s.warn message).Holds C V :=
  ⟨h.cache, h.saved, h.hosts⟩

theorem fatal (h : s.Holds C V) (message : String) : (s.fatal message).Holds C V :=
  ⟨h.cache, h.saved, h.hosts⟩

theorem bind (h : s.Holds C V) {g : Host} (hg : g.Holds V) : (s.bind g).Holds C V :=
  ⟨h.cache, h.saved, List.forall_mem_append.2 ⟨h.hosts, by simpa using hg⟩⟩

theorem of_host? (h : s.Holds C V) {id : Nat} {g : Host} (hg : s.host? id = some g) : g.Holds V :=
  h.hosts g (List.mem_of_getElem? hg)

theorem look (hcv : ValueClasses C V) (h : s.Holds C V) (id : Nat) :
    (s.look id).2.Holds C V ∧ ∀ v ∈ (s.look id).1, V v := by
  unfold ExecState.look
  split
  · exact ⟨h, by simp⟩
  · rename_i g hg
    obtain ⟨hlooked, hcache, hvalue⟩ := Host.holds_look hcv (h.of_host? hg) h.cache
    refine ⟨⟨hcache, h.saved, fun g' hg' => ?_⟩, hvalue⟩
    rcases List.mem_or_eq_of_mem_set hg' with hg' | rfl
    · exact h.hosts g' hg'
    · exact hlooked

theorem store (h : s.Holds C V) (name : String) (type : DataType) {value : Option Json}
    (hv : ∀ v ∈ value, V v) : (s.store name type value).Holds C V := by
  unfold ExecState.store
  split
  · exact h.warn _
  · rename_i value
    split
    · rename_i saved he
      refine ⟨h.cache, h.saved.insert name ?_, h.hosts⟩
      unfold SavedVar.encode at he
      split at he
      · rw [← Except.ok.inj he]
        exact hv value rfl
      · simp at he
    · exact h.warn _

theorem saveBound (hcv : ValueClasses C V) (h : s.Holds C V) (id : Nat) : (s.saveBound id).Holds C V := by
  obtain ⟨hs, hvalue⟩ := h.look hcv id
  unfold ExecState.saveBound
  simp only
  split
  · exact hs
  · exact hs.store _ _ hvalue

theorem saveHost (hcv : ValueClasses C V) (h : s.Holds C V) {g : Host} (hg : g.Holds V) :
    (s.saveHost g).2.Holds C V ∧ (s.saveHost g).1.Holds V := by
  obtain ⟨hlooked, hcache, hvalue⟩ := Host.holds_look hcv hg h.cache
  have hs : (s.noteLookup (g.look s.cache).2).Holds C V := ⟨hcache, h.saved, h.hosts⟩
  exact ⟨hs.store _ _ hvalue, hlooked⟩

/-! ## Passes -/

/-- What rules do keeps the values as they should be. -/
theorem kept (hcv : ValueClasses C V) :
    Kept (fun _ => True) (ExecState.Holds C V) (Host.Holds V) (Host.Holds V) where
  new _ := ⟨fun _ hc => by simp at hc, fun _ hd => by simp at hd⟩
  same hg := hg
  look hs id := (hs.look hcv id).1
  undefined hs _ := hs.warn _
  waiting hs _ _ := hs.fatal _
  malformed hs _ := hs.warn _
  refused hs _ _ _ := hs.warn _
  saveBound hs id := hs.saveBound hcv id
  saveHost hs hg := hs.saveHost hcv hg
  eval {s} hs text position :=
    ⟨(Deferred.holds_eval hcv (d := upperDeferred text position) rfl hs.cache).1, hs.saved, hs.hosts⟩
  text hg dependencies text := by
    refine Host.holds_setContent ?_ fun v hv => ?_
    · exact hg.deferred
    · obtain ⟨text, -, rfl⟩ := Option.map_eq_some_iff.1 hv
      exact hcv.cached (hcv.text text)
  bound hs hg id := by
    refine Host.holds_setContent ?_ (hs.look hcv id).2
    exact hg.deferred
  saved hs hg hsaved hdecode := by
    unfold SavedVar.decode at hdecode
    split at hdecode
    · obtain rfl := Except.ok.inj hdecode
      refine Host.holds_setContent ?_ fun v hv => Option.some.inj hv ▸ hs.saved.of_get? hsaved
      exact hg.deferred
    · cases hdecode
  json hg dependencies hread := by
    refine Host.holds_setContent ?_ fun v hv => Option.some.inj hv ▸ hcv.read hread
    exact hg.deferred
  upper hg dependencies text position := by
    refine Host.holds_setDeferred ?_ rfl
    exact hg.content
  bind hs hg := hs.bind hg
  next hs := hs.next
  last hs := hs.last

end ExecState.Holds

/-- A pass keeps the values as they should be. -/
theorem ExecState.Holds.runNodes (hcv : ValueClasses C V) (ns : List Node) {s : ExecState}
    (h : s.Holds C V) : (runNodes Registry.standard.execution ns s).state.Holds C V :=
  ((ExecState.Holds.kept hcv).runNodes (fun _ => trivial) ns h).2

end

end Evomark
