import Evomark.Proofs.Exec.Eager
import Evomark.Proofs.Exec.Mirror
import Evomark.Proofs.Json.Unambiguous
/-!
# Deferred and computed values agree

A pass that defers values and caches them is compared with one that computes them at once. The two
states agree (`ExecState.Agrees`) if they differ in hosts that are still pending on one side and in
the cache, whose entries are what `upper` makes of texts whose hashes are known (`CacheSound`). Where
no two of the known texts have the same hash, looking at a host gives the same value on both sides
(`ExecState.Agrees.look`), so every rule and every step does the same (`ExecState.Agrees.stepWith`).
-/

namespace Evomark

open ExecRule (upperInput bodyItems)

/-! ## The texts that are hashed -/

/-- The text that `upper` hashes for a text and a position. -/
def upperText (text : String) (position : Nat) : String := hashedText (upperInput text position) "upper"

/-- The texts a rule hashes. -/
def ExecRule.hashed (rule : ExecRule) (command : Node) (s : ExecState) : List String :=
  match rule with
  | upper =>
    match synthesize s (bodyItems command) with
    | (none, _, _) => []
    | (some text, _, s) => [upperText text s.position]
  | provide caller _ => [hashedText (.object [("cmd_pos", .int s.position)]) caller]
  | _ => []

/-- The texts a command hashes when it is executed. -/
def commandHashes (rules : Table ExecRule) (command : Node) (s : ExecState) : List String :=
  match rules.get? command.content with
  | none => []
  | some rule => rule.hashed command s

/-- The texts a step hashes. -/
def stepHashes (rules : Table ExecRule) (n : Node) (s : ExecState) : List String :=
  match n.kind with
  | .cmd => commandHashes rules n s
  | .varAssign =>
    match n.children with
    | [] => []
    | command :: _ => if command.kind != .cmd then [] else commandHashes rules command s
  | _ => []

/-- The texts a pass hashes. -/
def hashedIn (rules : Table ExecRule) (document : Node) (ctx : Context) : List String :=
  (stepsOf rules document.children (.ofContext ctx)).flatMap fun step => stepHashes rules step.1 step.2

/-- No two of the texts have the same hash. -/
def NoCollision (texts : List String) : Prop :=
  ∀ a ∈ texts, ∀ b ∈ texts, Digest.sha3Text a = Digest.sha3Text b → a = b

instance (texts : List String) : Decidable (NoCollision texts) :=
  inferInstanceAs (Decidable (∀ a ∈ texts, ∀ b ∈ texts, Digest.sha3Text a = Digest.sha3Text b → a = b))

/-- What `upper` hashes tells the text and the position it is made of. -/
theorem eq_of_upperText {text text' : String} {position position' : Nat}
    (h : upperText text position = upperText text' position') : text = text' ∧ position = position' := by
  have hplain : ∀ text position, (upperInput text position).InFormat := by
    intro text position x hx
    simp [upperInput, Json.int, Json.floats, Json.fieldFloats] at hx
  obtain ⟨-, hinput⟩ := eq_of_hashedText (hplain text position) (hplain text' position') h
  simp only [upperInput, Json.int, Json.object.injEq, List.cons.injEq, Prod.mk.injEq, Json.number.injEq,
    Number.integer.injEq, Int.natCast_inj, Json.string.injEq, true_and, and_true] at hinput
  exact hinput.symm

/-! ## Hosts -/

/-- Every entry of the cache is what `upper` makes of a text whose hash is known. -/
def CacheSound (known : List String) (cache : Table Json) : Prop :=
  ∀ key value, cache.get? key = some value → ∃ text position, upperText text position ∈ known ∧
    key = hashOf (upperInput text position) "upper" ∧ value = .string (Text.uppercase text)

/-- What `upper` defers comes out as it is computed, and the cache stays sound. -/
theorem eval_upperDeferred {known : List String} (hno : NoCollision known) {text : String}
    {position : Nat} (hmem : upperText text position ∈ known) {cache : Table Json}
    (hc : CacheSound known cache) :
    ((upperDeferred text position).eval cache).value = some (.string (Text.uppercase text)) ∧
      CacheSound known ((upperDeferred text position).eval cache).cache := by
  have happly : Evaluator.uppercaseText.apply (upperInput text position) =
      some (.string (Text.uppercase text)) := by
    simp [Evaluator.apply, upperInput, Json.field?, Table.get?, Json.string?]
  cases hget : cache.get? (hashOf (upperInput text position) "upper") with
  | some value =>
    obtain ⟨text', position', hmem', hkey, rfl⟩ := hc _ _ hget
    have htext : text = text' := (eq_of_upperText (hno _ hmem _ hmem' hkey)).1
    have heval : (upperDeferred text position).eval cache =
        ⟨some (.string (Text.uppercase text')), cache, []⟩ := by
      simp [Deferred.eval, upperDeferred, hget]
    rw [heval, htext]
    exact ⟨rfl, hc⟩
  | none =>
    have heval : (upperDeferred text position).eval cache =
        ⟨some (.string (Text.uppercase text)),
          cache.insert (hashOf (upperInput text position) "upper") (.string (Text.uppercase text)),
          [⟨.uppercaseText, upperInput text position⟩]⟩ := by
      simp [Deferred.eval, upperDeferred, hget, happly]
    rw [heval]
    refine ⟨rfl, fun key value h => ?_⟩
    rw [Table.get?_insert] at h
    split at h
    · rename_i hkey
      exact ⟨text, position, hmem, hkey.symm, (Option.some.inj h).symm⟩
    · exact hc key value h

namespace Host

/-- Hosts with the same content, which is final or missing. -/
structure Settled (h g : Host) : Prop where
  content : g.content = h.content
  defined : g.defined = h.defined
  undeferred : h.content = .unset → h.deferred = none

/-- A host whose content is deferred, and one with the content that will come out. -/
structure Pending (known : List String) (h g : Host) : Prop where
  unset : h.content = .unset
  defined : g.defined = true
  upper : ∃ text position, upperText text position ∈ known ∧
    h.deferred = some (upperDeferred text position) ∧
    g.content = .frozen (some (.string (Text.uppercase text)))

/-- A host of a pass that defers contents, and the same host of one that does not. -/
structure Agrees (known : List String) (h g : Host) : Prop where
  name : g.name = h.name
  type : g.type = h.type
  dependencies : g.dependencies = h.dependencies
  eager : g.deferred = none
  content : Settled h g ∨ Pending known h g

variable {known : List String} {h g : Host}

/-- A host that defers nothing agrees with itself. -/
theorem Agrees.refl (hd : h.deferred = none) : Agrees known h h :=
  ⟨rfl, rfl, rfl, hd, .inl ⟨rfl, rfl, fun _ => hd⟩⟩

/-- What both sides give when they are looked at. -/
theorem Agrees.look (hno : NoCollision known) (ha : Agrees known h g) {cache : Table Json}
    (hc : CacheSound known cache) (cache' : Table Json) :
    g.look cache' = (g, ⟨(h.look cache).2.value, cache', []⟩) ∧ Agrees known (h.look cache).1 g ∧
      Settled (h.look cache).1 g ∧ CacheSound known (h.look cache).2.cache := by
  rcases ha.content with hs | hp
  · have hlook : ∀ value, h.content = .frozen value → h.look cache = (h, ⟨value, cache, []⟩) := by
      intro value hv
      simp [Host.look, hv]
    cases hcontent : h.content with
    | frozen value =>
      have hg : g.content = .frozen value := hs.content.trans hcontent
      rw [hlook value hcontent]
      exact ⟨by simp [Host.look, hg], ha, hs, hc⟩
    | unset =>
      have hg : g.content = .unset := hs.content.trans hcontent
      have hlazy : h.look cache = (h, ⟨none, cache, []⟩) := by
        simp [Host.look, hcontent, hs.undeferred hcontent]
      rw [hlazy]
      exact ⟨by simp [Host.look, hg, ha.eager], ha, hs, hc⟩
  · obtain ⟨text, position, hmem, hdeferred, hg⟩ := hp.upper
    obtain ⟨hvalue, hcache⟩ := eval_upperDeferred hno hmem hc
    have hlazy : h.look cache = (h.setContent (some (.string (Text.uppercase text))),
        (upperDeferred text position).eval cache) := by
      simp [Host.look, hp.unset, hdeferred, hvalue]
    have hsettled : Settled (h.setContent (some (.string (Text.uppercase text)))) g :=
      ⟨hg, hp.defined, fun hunset => by simp [Host.setContent] at hunset⟩
    rw [hlazy]
    refine ⟨?_, ⟨ha.name, ha.type, ha.dependencies, ha.eager, .inl hsettled⟩, hsettled, hcache⟩
    simp [Host.look, hg, hvalue]

end Host

/-! ## States -/

/-- A state of a pass that defers contents, and the same state of one that does not. -/
structure ExecState.Agrees (known : List String) (s t : ExecState) : Prop where
  cache : CacheSound known s.cache
  uncached : t.cache = []
  saved : t.saved = s.saved
  bindings : t.bindings = s.bindings
  halted : t.halted = s.halted
  lastAssigned : t.lastAssigned = s.lastAssigned
  warnings : t.warnings = s.warnings
  position : t.position = s.position
  length : t.hosts.length = s.hosts.length
  hosts : ∀ id h g, s.host? id = some h → t.host? id = some g → Host.Agrees known h g

namespace ExecState.Agrees

variable {known : List String} {s t : ExecState}

theorem ofContext {cache : Table Json} (hc : CacheSound known cache) (saved : Table SavedVar) :
    (ExecState.ofContext ⟨cache, saved⟩).Agrees known (ExecState.ofContext ⟨[], saved⟩) :=
  ⟨hc, rfl, rfl, rfl, rfl, rfl, rfl, rfl, rfl, fun id h g hh => by simp [ExecState.ofContext, host?] at hh⟩

theorem next (a : s.Agrees known t) : s.next.Agrees known t.next :=
  ⟨a.cache, a.uncached, a.saved, a.bindings, a.halted, a.lastAssigned, rfl,
    congrArg (· + 1) a.position, a.length, a.hosts⟩

theorem last (a : s.Agrees known t) : s.last.Agrees known t.last :=
  ⟨a.cache, a.uncached, a.saved, a.bindings, a.halted, a.lastAssigned, rfl, a.position, a.length, a.hosts⟩

theorem warn (a : s.Agrees known t) (message : String) : (s.warn message).Agrees known (t.warn message) :=
  ⟨a.cache, a.uncached, a.saved, a.bindings, a.halted, a.lastAssigned,
    congrArg (· ++ [message]) a.warnings, a.position, a.length, a.hosts⟩

theorem fatal (a : s.Agrees known t) (message : String) : (s.fatal message).Agrees known (t.fatal message) :=
  have w := a.warn message
  ⟨w.cache, w.uncached, w.saved, w.bindings, rfl, w.lastAssigned, w.warnings, w.position, w.length, w.hosts⟩

theorem bound? (a : s.Agrees known t) (name : String) : t.bound? name = s.bound? name := by
  rw [ExecState.bound?, a.bindings]
  rfl

theorem host?_cases (a : s.Agrees known t) (id : Nat) :
    (s.host? id = none ∧ t.host? id = none) ∨
      ∃ h g, s.host? id = some h ∧ t.host? id = some g ∧ Host.Agrees known h g := by
  rcases Nat.lt_or_ge id s.hosts.length with hlt | hge
  · have hlt' : id < t.hosts.length := by
      rw [a.length]
      exact hlt
    have hs : s.host? id = some s.hosts[id] := List.getElem?_eq_getElem hlt
    have ht : t.host? id = some t.hosts[id] := List.getElem?_eq_getElem hlt'
    exact .inr ⟨_, _, hs, ht, a.hosts id _ _ hs ht⟩
  · have hge' : t.hosts.length ≤ id := by
      rw [a.length]
      exact hge
    exact .inl ⟨List.getElem?_eq_none hge, List.getElem?_eq_none hge'⟩

/-- Looking at a host gives the same value on both sides. -/
theorem look (hno : NoCollision known) (a : s.Agrees known t) (id : Nat) :
    (t.look id).1 = (s.look id).1 ∧ (s.look id).2.Agrees known (t.look id).2 ∧
      (t.look id).2.isDefined id = (s.look id).2.isDefined id := by
  rcases a.host?_cases id with ⟨hs, ht⟩ | ⟨h, g, hs, ht, hagrees⟩
  · simp only [ExecState.look, hs, ht]
    refine ⟨trivial, a, ?_⟩
    rw [isDefined, isDefined, hs, ht]
  · obtain ⟨hg, hlooked, hsettled, hcache⟩ := hagrees.look hno a.cache t.cache
    have hlt : id < s.hosts.length := (List.getElem?_eq_some_iff.1 hs).1
    have hlt' : id < t.hosts.length := (List.getElem?_eq_some_iff.1 ht).1
    simp only [ExecState.look, hs, ht, hg]
    refine ⟨trivial, ?_, ?_⟩
    · refine ⟨hcache, a.uncached, a.saved, a.bindings, a.halted, a.lastAssigned, a.warnings, a.position,
        by simpa [noteLookup] using a.length, fun id' h' g' hh hg' => ?_⟩
      simp only [host?, List.getElem?_set] at hh hg'
      by_cases hid : id = id'
      · rw [if_pos hid, if_pos (by omega), Option.some.injEq] at hh hg'
        rw [← hh, ← hg']
        exact hlooked
      · rw [if_neg hid] at hh hg'
        exact a.hosts id' h' g' hh hg'
    · simp [isDefined, host?, hlt, hlt', hsettled.defined]

theorem bind (a : s.Agrees known t) {h g : Host} (hagrees : Host.Agrees known h g) :
    (s.bind h).Agrees known (t.bind g) := by
  refine ⟨a.cache, a.uncached, a.saved, ?_, a.halted, ?_, a.warnings, a.position, ?_,
    fun id h' g' hh hg' => ?_⟩
  · simp only [ExecState.bind, a.bindings, hagrees.name, a.length]
  · simp only [ExecState.bind, a.length]
  · simp only [ExecState.bind, List.length_append, a.length, List.length_singleton]
  · simp only [ExecState.bind, host?] at hh hg'
    rcases Nat.lt_or_ge id s.hosts.length with hlt | hge
    · rw [List.getElem?_append_left hlt] at hh
      rw [List.getElem?_append_left (by rw [a.length]; exact hlt)] at hg'
      exact a.hosts id h' g' hh hg'
    · rw [List.getElem?_append_right hge] at hh
      rw [List.getElem?_append_right (by rw [a.length]; exact hge), a.length] at hg'
      cases hid : id - s.hosts.length with
      | zero =>
        rw [hid] at hh hg'
        rw [← Option.some.inj hh, ← Option.some.inj hg']
        exact hagrees
      | succ k =>
        rw [hid] at hh
        simp at hh

theorem store (a : s.Agrees known t) (name : String) (type : DataType) (value : Option Json) :
    (s.store name type value).Agrees known (t.store name type value) := by
  unfold ExecState.store
  split
  · exact a.warn _
  · split
    · exact ⟨a.cache, a.uncached, congrArg (Table.insert name _) a.saved, a.bindings, a.halted,
        a.lastAssigned, a.warnings, a.position, a.length, a.hosts⟩
    · exact a.warn _

theorem saveBound (hno : NoCollision known) (a : s.Agrees known t) (id : Nat) :
    (s.saveBound id).Agrees known (t.saveBound id) := by
  obtain ⟨hvalue, hstate, -⟩ := a.look hno id
  simp only [ExecState.saveBound, hvalue]
  rcases hstate.host?_cases id with ⟨hs, ht⟩ | ⟨h, g, hs, ht, hagrees⟩
  · rw [hs, ht]
    exact hstate
  · rw [hs, ht]
    simp only [hagrees.name, hagrees.type]
    exact hstate.store _ _ _

theorem saveHost (a : s.Agrees known t) {h : Host} (hr : h.isResolved = true) :
    (t.saveHost h).1 = h ∧ (s.saveHost h).1 = h ∧ (s.saveHost h).2.Agrees known (t.saveHost h).2 := by
  have hlook : ∃ value, ∀ cache, h.look cache = (h, ⟨value, cache, []⟩) := by
    cases hc : h.content with
    | unset => simp [Host.isResolved, hc] at hr
    | frozen value => exact ⟨value, fun cache => by simp [Host.look, hc]⟩
  obtain ⟨value, hlook⟩ := hlook
  simp only [ExecState.saveHost, ExecState.lookHost, hlook]
  refine ⟨trivial, trivial, ExecState.Agrees.store ?_ _ _ _⟩
  exact ⟨a.cache, a.uncached, a.saved, a.bindings, a.halted, a.lastAssigned, a.warnings, a.position,
    a.length, a.hosts⟩

/-! ## Rules -/

/-- The two passes look the same in each state. -/
theorem mirrors (hno : NoCollision known) : Mirrors (fun _ => True) (ExecState.Agrees known) where
  before _ _ := trivial
  beforeFatal _ := trivial
  bound? a name := a.bound? name
  type a id := by
    rcases a.host?_cases id with ⟨hs, ht⟩ | ⟨h, g, hs, ht, hagrees⟩
    · rw [hs, ht]
    · rw [hs, ht, Option.map_some, Option.map_some, hagrees.type]
  look a id _ := by
    obtain ⟨hvalue, hstate, hdefined⟩ := a.look hno id
    exact ⟨⟨hvalue, hstate⟩, hdefined⟩
  warn a message := a.warn message
  fatal a message := a.fatal message

theorem lookText (hno : NoCollision known) (a : s.Agrees known t) (id : Nat) :
    SameThen (ExecState.Agrees known) (s.lookText id) (t.lookText id) :=
  (mirrors hno).lookText a id trivial

theorem saveNames (hno : NoCollision known) (names : List String) (a : s.Agrees known t) :
    (names.foldl ExecRule.saveName s).Agrees known (names.foldl ExecRule.saveName t) := by
  induction names generalizing s t with
  | nil => exact a
  | cons name rest ih =>
    refine ih ?_
    simp only [ExecRule.saveName, a.bound? name]
    cases s.bound? name with
    | none => exact a.warn _
    | some id => exact a.saveBound hno id

theorem initText (hno : NoCollision known) (c : Node) (h : Host) (a : s.Agrees known t) :
    (ExecRule.initText c h t).1 = (ExecRule.initText c h s).1 ∧
      (ExecRule.initText c h s).2.Agrees known (ExecRule.initText c h t).2 := by
  obtain ⟨hhost, hstate⟩ := (mirrors hno).storeText c h a trivial
  have hresolved : (ExecRule.storeText c h s).1.isResolved = true := rfl
  unfold ExecRule.initText
  simp only [hhost]
  split
  · obtain ⟨ht, hs, hsaved⟩ := hstate.saveHost hresolved
    rw [ht, hs]
    exact ⟨rfl, hsaved⟩
  · exact ⟨rfl, hstate⟩

theorem runInit (hno : NoCollision known) (c : Node) (h : Host) (a : s.Agrees known t) :
    (ExecRule.runInit c h t).1 = (ExecRule.runInit c h s).1 ∧
      (ExecRule.runInit c h s).2.Agrees known (ExecRule.runInit c h t).2 := by
  simp only [ExecRule.runInit, a.bound? h.name, a.saved]
  cases s.bound? h.name with
  | some id =>
    obtain ⟨hvalue, hstate, -⟩ := a.look hno id
    simp only [hvalue, (mirrors hno).type a id]
    exact ⟨trivial, hstate⟩
  | none =>
    simp only
    split
    · exact a.initText hno c h
    · split
      · exact ⟨rfl, a⟩
      · exact (a.warn _).initText hno c h

end ExecState.Agrees

/-! ## Steps -/

/-- What a rule did to a command on both sides. -/
structure Executed.Agrees (known : List String) (d e : Executed) : Prop where
  command : e.command = d.command
  host : Option.Rel (Host.Agrees known) d.host e.host
  state : d.state.Agrees known e.state

/-- What a step did to a node on both sides. -/
def StepAgrees (known : List String) (r q : Node × ExecState) : Prop :=
  q.1 = r.1 ∧ r.2.Agrees known q.2

namespace ExecState.Agrees

variable {known : List String} {s t : ExecState}

/-- A host that defers nothing is the same on both sides. -/
theorem refl_host {host : Option Host} (hh : ∀ h ∈ host, h.deferred = none) :
    Option.Rel (Host.Agrees known) host host := by
  cases host with
  | none => exact .none
  | some h => exact .some (.refl (hh h rfl))

/-- Outside an assignment `upper` attaches the same text on both sides. -/
theorem attachUpper (hno : NoCollision known) {text : String} {position : Nat}
    (hmem : upperText text position ∈ known) (c : Node) (a : s.Agrees known t) :
    (ExecRule.attachUpper c (upperInput text position) s).1 =
        ExecRule.attachResult c (Text.uppercase text) ∧
      (ExecRule.attachUpper c (upperInput text position) s).2.Agrees known t := by
  obtain ⟨hvalue, hcache⟩ := eval_upperDeferred hno hmem a.cache
  rw [ExecRule.attachUpper_eq, hvalue]
  exact ⟨rfl, hcache, a.uncached, a.saved, a.bindings, a.halted, a.lastAssigned, a.warnings, a.position,
    a.length, a.hosts⟩

theorem deferred_initText (c : Node) (h : Host) (s : ExecState) :
    (ExecRule.initText c h s).1.deferred = h.deferred := by
  have hlook : ∀ (g : Host) cache, (g.look cache).1.deferred = g.deferred := by
    intro g cache
    unfold Host.look
    repeat' split
    all_goals rfl
  unfold ExecRule.initText
  simp only
  split
  · exact hlook (ExecRule.storeText c h s).1 (ExecRule.storeText c h s).2.cache
  · rfl

theorem deferred_runInit (c : Node) (h : Host) (s : ExecState) :
    (ExecRule.runInit c h s).1.deferred = h.deferred := by
  unfold ExecRule.runInit
  split
  · rfl
  · split
    · exact deferred_initText c h s
    · split
      · rfl
      · exact deferred_initText c h _

/-- Every standard rule does the same on both sides. -/
theorem runEager (hno : NoCollision known) {rule : ExecRule} (hrule : rule.IsStandard) (c : Node)
    {host : Option Host} (hh : ∀ h ∈ host, h.deferred = none ∧ h.content = .unset) (a : s.Agrees known t)
    (hknown : ∀ x ∈ rule.hashed c s, x ∈ known) :
    Alike (Executed.Agrees known) (rule.run c host s) (rule.runEager c host t) := by
  have hhost : Option.Rel (Host.Agrees known) host host := refl_host fun h hm => (hh h hm).1
  cases rule with
  | warn | fatal | halt | fail | provide => exact hrule.elim
  | assign =>
    cases host with
    | none => exact .ok ⟨rfl, hhost, a⟩
    | some h =>
      obtain ⟨hg, hstate⟩ := (mirrors hno).storeText c h a trivial
      have hagrees : Host.Agrees known (ExecRule.storeText c h s).1 (ExecRule.storeText c h t).1 := by
        rw [hg]
        exact .refl (hh h rfl).1
      exact .ok ⟨rfl, .some hagrees, hstate⟩
  | init =>
    cases host with
    | none => exact .ok ⟨rfl, hhost, a⟩
    | some h =>
      obtain ⟨hg, hstate⟩ := a.runInit hno c h
      have hagrees : Host.Agrees known (ExecRule.runInit c h s).1 (ExecRule.runInit c h t).1 := by
        rw [hg]
        exact .refl ((deferred_runInit c h s).trans (hh h rfl).1)
      exact .ok ⟨rfl, .some hagrees, hstate⟩
  | save => exact .ok ⟨rfl, hhost, a.saveNames hno _⟩
  | require => exact .ok ⟨rfl, hhost, (mirrors hno).runRequire _ a trivial⟩
  | json =>
    rcases hs : Evomark.synthesize s (bodyItems c) with ⟨text, dependencies, s'⟩
    obtain ⟨t', ht, hstate⟩ := (mirrors hno).synthesize_eq a hs trivial
    simp only [ExecRule.runEager, ExecRule.run, hs, ht]
    cases text with
    | none => exact .ok ⟨rfl, hhost, hstate⟩
    | some text =>
      simp only
      split
      · refine .ok ⟨rfl, refl_host fun g hg => ?_, hstate⟩
        obtain ⟨h, hmem, rfl⟩ := Option.map_eq_some_iff.1 hg
        exact (hh h hmem).1
      · exact .ok ⟨rfl, hhost, hstate.warn _⟩
  | upper =>
    rcases hs : Evomark.synthesize s (bodyItems c) with ⟨text, dependencies, s'⟩
    obtain ⟨t', ht, hstate⟩ := (mirrors hno).synthesize_eq a hs trivial
    simp only [ExecRule.hashed, hs] at hknown
    simp only [ExecRule.runEager, ExecRule.run, hs, ht]
    cases text with
    | none => exact .ok ⟨rfl, hhost, hstate⟩
    | some text =>
      have hmem : upperText text s'.position ∈ known := hknown _ (List.mem_singleton.2 rfl)
      cases host with
      | some h =>
        obtain ⟨hdeferred, hcontent⟩ := hh h rfl
        refine .ok ⟨rfl, .some ⟨rfl, rfl, rfl, hdeferred, .inr ⟨hcontent, rfl, ?_⟩⟩, hstate⟩
        exact ⟨text, s'.position, hmem, rfl, rfl⟩
      | none =>
        obtain ⟨hcommand, hstate⟩ := hstate.attachUpper hno hmem c
        exact .ok ⟨hcommand.symm, .none, hstate⟩

/-- An assignment does the same on both sides. -/
theorem assignWith (hno : NoCollision known) {n : Node} {command : Node} {rest : List Node}
    (hchildren : n.children = command :: rest) (hcommand : command.kind = .cmd) (a : s.Agrees known t)
    (hknown : ∀ x ∈ commandHashes Registry.standard.execution command s, x ∈ known) :
    Alike (StepAgrees known) (runAssignment Registry.standard.execution n s)
      (assignWith ExecRule.runEager Registry.standard.execution n t) := by
  have hkind : (command.kind != .cmd) = false := by simp [hcommand]
  unfold runAssignment Evomark.assignWith
  simp only [hchildren, hkind, Bool.false_eq_true, if_false]
  unfold commandHashes at hknown
  cases hrule : Registry.standard.execution.get? command.content with
  | none => exact .error _
  | some rule =>
    rw [hrule] at hknown
    have hfresh : ∀ h ∈ some ({ name := n.content } : Host), h.deferred = none ∧ h.content = .unset := by
      intro h hm
      rw [← Option.some.inj hm]
      exact ⟨rfl, rfl⟩
    refine (a.runEager hno (isStandard_of_get? hrule) command hfresh hknown).bind fun d e hde => ?_
    have hnode : n.withChildren (e.command :: rest) = n.withChildren (d.command :: rest) := by rw [hde.command]
    have hhost := hde.host
    cases hd : d.host <;> cases he : e.host <;> rw [hd, he] at hhost <;> cases hhost
    · exact .ok ⟨hnode, hde.state⟩
    · rename_i hagrees
      exact .ok ⟨hnode, hde.state.bind hagrees⟩

/-- Every step does the same on both sides. -/
theorem stepWith (hno : NoCollision known) (n : Node) (a : s.Agrees known t)
    (hknown : ∀ x ∈ stepHashes Registry.standard.execution n s, x ∈ known) :
    Alike (StepAgrees known) (runStep Registry.standard.execution n s)
      (stepWith ExecRule.runEager Registry.standard.execution n t) := by
  unfold stepHashes at hknown
  unfold runStep Evomark.stepWith
  cases hkind : n.kind with
  | varUse => exact (mirrors hno).runUse n a fun _ _ _ => trivial
  | varAssign =>
    simp only [hkind] at hknown ⊢
    cases hchildren : n.children with
    | nil =>
      simp only [runAssignment, Evomark.assignWith, hchildren]
      exact .error _
    | cons command rest =>
      simp only [hchildren] at hknown
      by_cases hcommand : command.kind = .cmd
      · rw [if_neg (by simp [hcommand])] at hknown
        exact a.assignWith hno hchildren hcommand hknown
      · have hother : (command.kind != .cmd) = true := by simp [hcommand]
        simp only [runAssignment, Evomark.assignWith, hchildren, hother, if_true]
        exact .error _
  | cmd =>
    simp only [hkind, commandHashes] at hknown ⊢
    cases hrule : Registry.standard.execution.get? n.content with
    | none => exact .error _
    | some rule =>
      rw [hrule] at hknown
      refine (a.runEager hno (isStandard_of_get? hrule) n (by simp) hknown).bind fun d e hde => ?_
      exact .ok ⟨hde.command, hde.state⟩
  | _ => exact .error _

end ExecState.Agrees

end Evomark
