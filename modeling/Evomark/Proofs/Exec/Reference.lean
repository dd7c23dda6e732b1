import Evomark.Proofs.Exec.Reachable
/-!
# The text of a body, from its nodes

`synthesize` goes over the nodes of a body twice, and pairs the uses of variables with their hosts by their
order. Here its outcome is read off the nodes one by one: each gives a piece of the text (`piece`), and what a
use gives is the text of its host once all hosts that are named have been looked at (`synthesize_pieces`). The looks
freeze these hosts and fill the cache, and they change nothing else (`lookAll_eq`).
-/

namespace Evomark

/-- What a node adds to the text of a body, given the texts of names. -/
def piece (textOf : String → Option String) (n : Node) : List Char :=
  match n.kind with
  | .varUse => ((textOf n.content).getD "").toList ++ [' ']
  | .literal => n.content.toList ++ [' ']
  | .sep => List.replicate n.label.sepCount '\n'
  | _ => []

namespace ExecState

/-- The hosts at some places looked at, in order. -/
def lookAll (s : ExecState) (places : List Nat) : ExecState := places.foldl (fun s place => (s.look place).2) s

/-- The text of what the host of a name holds. -/
def textOf? (s : ExecState) (name : String) : Option String :=
  (s.hostOf? name).bind fun h => h.held.map (Host.textOf h.type)

/-! ## Looks -/

variable {s : ExecState} {place : Nat} {h : Host}

theorem lookAll_eq_readAll (s : ExecState) (places : List Nat) :
    s.lookAll places = s.readAll (places.map .content) := by
  rw [readAll, List.foldl_map]
  rfl

theorem look_eq (s : ExecState) (place : Nat) :
    (s.look place).2 = { s with
      hosts := (s.look place).2.hosts
      cache := (s.look place).2.cache
      evaluations := (s.look place).2.evaluations } := by
  unfold look
  split <;> rfl

/-- Looks change the hosts and the cache, and what has been evaluated. -/
theorem lookAll_eq (s : ExecState) (places : List Nat) :
    s.lookAll places = { s with
      hosts := (s.lookAll places).hosts
      cache := (s.lookAll places).cache
      evaluations := (s.lookAll places).evaluations } := by
  induction places generalizing s with
  | nil => rfl
  | cons place rest ih =>
    have hrest := ih (s.look place).2
    rw [s.look_eq place] at hrest
    rw [lookAll, List.foldl_cons, ← lookAll, s.look_eq place]
    exact hrest

theorem bound?_lookAll (s : ExecState) (places : List Nat) (name : String) :
    (s.lookAll places).bound? name = s.bound? name := by
  rw [s.lookAll_eq places]
  rfl

theorem host?_lookAll_of_not_mem {places : List Nat} (hp : place ∉ places) :
    (s.lookAll places).host? place = s.host? place := by
  induction places generalizing s with
  | nil => rfl
  | cons other rest ih =>
    rw [List.mem_cons, not_or] at hp
    rw [lookAll, List.foldl_cons, ← lookAll, ih hp.2, host?_look, if_neg (Ne.symm hp.1)]

theorem host?_lookAll_of_isFinal (hh : s.host? place = some h) (hf : h.IsFinal) (places : List Nat) :
    (s.lookAll places).host? place = some h := by
  induction places generalizing s with
  | nil => exact hh
  | cons other rest ih =>
    refine ih ?_
    rw [host?_look]
    split
    · rw [hh, Option.map_some, h.look_of_isFinal hf]
    · exact hh

/-- A host is as the first look leaves it. -/
theorem host?_lookAll_of_mem {places : List Nat} (hp : place ∈ places) (hh : s.host? place = some h) :
    ∃ front back, places = front ++ place :: back ∧ place ∉ front ∧
      (s.lookAll places).host? place = some (h.look (s.lookAll front).cache).1 := by
  obtain ⟨front, back, rfl, hfront⟩ := List.eq_append_cons_of_mem hp
  refine ⟨front, back, rfl, hfront, ?_⟩
  have hbefore : (s.lookAll front).host? place = some h := (host?_lookAll_of_not_mem hfront).trans hh
  rw [lookAll, List.foldl_append, List.foldl_cons]
  refine host?_lookAll_of_isFinal ?_ (h.isFinal_look (s.lookAll front).cache) back
  show ((s.lookAll front).look place).2.host? place = _
  rw [host?_look, if_pos rfl, hbefore]
  rfl

theorem map_read_readings (reads : List Read) (s : ExecState) : (s.readings reads).map (·.read) = reads := by
  induction reads generalizing s with
  | nil => rfl
  | cons r rest ih => exact congrArg (r :: ·) (ih _)

/-- What is cached stays, and what is new is what a host that was looked at defers, under its hash. -/
theorem cache_lookAll (s : ExecState) (places : List Nat) :
    s.cache.Sub (s.lookAll places).cache ∧
      ∀ hash value, (s.lookAll places).cache.get? hash = some value → s.cache.get? hash = some value ∨
        ∃ place ∈ places, ∃ d, s.deferredAt place = some d ∧ d.hash = some hash ∧
          d.evaluator.apply d.input = some value := by
  rw [lookAll_eq_readAll]
  refine ⟨s.sub_readAll _, fun hash value hv => (s.computed_of_new _ hv).imp_right ?_⟩
  rintro ⟨r, hr, hhash, x, hx, hvalue⟩
  obtain ⟨hr', hrun⟩ := s.deferredAt_readings _ r hr
  obtain ⟨d, hd, rfl⟩ := hrun x hx
  have hread : r.read ∈ places.map Read.content := by
    rw [← map_read_readings (places.map Read.content) s]
    exact List.mem_map_of_mem hr
  obtain ⟨place, hplace, hcontent⟩ := List.mem_map.1 hread
  rw [← hcontent] at hr' hd
  have hd : s.deferredAt place = some d := hd
  have hr' : r.hash = (s.deferredAt place).bind (·.hash) := hr'
  rw [hd, hhash] at hr'
  exact ⟨place, hplace, d, hd, hr'.symm, hvalue⟩

end ExecState

/-! ## Names -/

theorem Host.Tells.defined_eq {h : Host} (ht : h.Tells) : h.defined = h.held.isSome := by
  rw [Bool.eq_iff_iff]
  refine ht.trans ?_
  rw [held]
  cases h.content with
  | unset => simp
  | frozen value => simp [Option.isSome_iff_exists]

namespace ExecState.Reachable

variable {s : ExecState}

/-- The names are resolved to what is bound to them, and those are missing whose hosts hold nothing when all have
been looked at. -/
theorem resolveNames_eq (hs : s.Reachable) (names : List String) :
    resolveNames s names =
      (names.map s.bound?,
        names.filter (fun name => ((s.lookAll (names.filterMap s.bound?)).textOf? name).isNone),
        s.lookAll (names.filterMap s.bound?)) := by
  induction names generalizing s with
  | nil => rfl
  | cons name rest ih =>
    cases hb : s.bound? name with
    | none =>
      have hname (places : List Nat) : (s.lookAll places).textOf? name = none := by
        rw [textOf?, hostOf?, bound?_lookAll, hb]
        rfl
      rw [resolveNames]
      simp only [hb, ih hs, List.filterMap_cons, List.map_cons, List.filter_cons, hname, Option.isNone_none, if_true]
    | some place =>
      obtain ⟨h, hh⟩ := hs.exists_host hb
      have hlook : (s.look place).2.host? place = some (h.look s.cache).1 := by
        rw [host?_look, if_pos rfl, hh]
        rfl
      have hbound : (s.look place).2.bound? = s.bound? := by
        funext name
        rw [bound?, bindings_look, bound?]
      have htells := (hs.look place).tells _ (List.mem_of_getElem? hlook)
      have hrest := ih (hs.look place)
      rw [hbound] at hrest
      have hname (places : List Nat) :
          (((s.look place).2.lookAll places).textOf? name).isNone = !(s.look place).2.isDefined place := by
        have hhost := host?_lookAll_of_isFinal hlook (h.isFinal_look s.cache) places
        rw [textOf?, hostOf?, bound?_lookAll, hbound, hb, Option.bind_some, hhost, Option.bind_some, isDefined,
          hlook, Option.map_some, Option.getD_some, htells.defined_eq, Option.isNone_map]
        cases (h.look s.cache).1.held <;> rfl
      have hall (places : List Nat) : s.lookAll (place :: places) = (s.look place).2.lookAll places := rfl
      rw [resolveNames]
      simp only [hb, hrest, List.filterMap_cons, List.map_cons, List.filter_cons, hall, hname]
      cases (s.look place).2.isDefined place <;> rfl

end ExecState.Reachable

/-! ## Pieces -/

/-- Where looks at the hosts of the uses change nothing, the nodes are put together piece by piece. -/
theorem assemble_eq {s : ExecState} {textOf : String → Option String} (ns : List Node) {places : List Nat}
    (h : List.Forall₂ (fun name place => s.lookText place = (textOf name, s)) (usedNames ns) places) :
    assemble s places ns = (ns.flatMap (piece textOf), s) := by
  induction ns generalizing places with
  | nil => rfl
  | cons n rest ih =>
    have hnames : usedNames (n :: rest) = (if n.kind = .varUse then [n.content] else []) ++ usedNames rest := by
      by_cases hk : n.kind = .varUse <;> simp [usedNames, hk]
    rw [hnames] at h
    rw [List.flatMap_cons]
    cases hk : n.kind
    case varUse =>
      rw [if_pos hk, List.singleton_append] at h
      obtain ⟨place, more, hplace, hmore, rfl⟩ := List.forall₂_cons_left_iff.1 h
      unfold assemble
      simp only [hk, hplace, ih hmore, piece, List.append_assoc, List.singleton_append]
    all_goals
      rw [if_neg (by rw [hk]; decide), List.nil_append] at h
      conv_lhs => unfold assemble
      simp [hk, ih h, piece]

/-- The text of nodes of which none uses a variable. -/
theorem synthesize_of_no_uses (s : ExecState) {ns : List Node} (h : usedNames ns = []) :
    synthesize s ns = (some (String.ofList (Text.normalizeText (ns.flatMap (piece fun _ => none)))), [], s) := by
  have hpieces := @assemble_eq s (fun _ => none) ns [] (by rw [h]; exact .nil)
  rw [synthesize, h]
  show (some (String.ofList (Text.normalizeText (assemble s [] ns).1)), [], (assemble s [] ns).2) = _
  rw [hpieces]

/-- The text of a host that has been looked at is found again, and looking at it once more changes nothing. -/
theorem lookText_lookAll {s : ExecState} (hs : s.Reachable) {places : List Nat} {name : String} {place : Nat}
    (hb : s.bound? name = some place) (hp : place ∈ places) :
    (s.lookAll places).lookText place = ((s.lookAll places).textOf? name, s.lookAll places) := by
  obtain ⟨h, hh⟩ := hs.exists_host hb
  obtain ⟨front, -, -, -, hlooked⟩ := ExecState.host?_lookAll_of_mem hp hh
  have hfinal := h.isFinal_look (s.lookAll front).cache
  rw [ExecState.lookText_of_host? hlooked, Host.look_of_isFinal hfinal, ExecState.look_of_isFinal hlooked hfinal,
    ExecState.textOf?, ExecState.hostOf?, ExecState.bound?_lookAll, hb, Option.bind_some, hlooked, Option.bind_some]

/-- A name with a text is bound. -/
theorem exists_place {s : ExecState} {places : List Nat} {name : String}
    (h : ((s.lookAll places).textOf? name).isSome = true) : ∃ place, s.bound? name = some place := by
  rw [ExecState.textOf?, ExecState.hostOf?, ExecState.bound?_lookAll] at h
  cases hb : s.bound? name with
  | none =>
    rw [hb] at h
    cases h
  | some place => exact ⟨place, rfl⟩

/-- Once all hosts that are named have been looked at, the nodes are put together from their texts. -/
theorem assemble_lookAll {s : ExecState} (hs : s.Reachable) {ns : List Node} :
    let places := (usedNames ns).filterMap s.bound?
    (∀ name ∈ usedNames ns, ((s.lookAll places).textOf? name).isSome = true) →
      assemble (s.lookAll places) places ns = (ns.flatMap (piece (s.lookAll places).textOf?), s.lookAll places) := by
  intro places hvalues
  refine assemble_eq ns ?_
  -- the uses and their places go together, since every name has a place among all of them
  have hall : ∀ names : List String, (∀ name ∈ names, name ∈ usedNames ns) →
      List.Forall₂ (fun name place =>
        (s.lookAll places).lookText place = ((s.lookAll places).textOf? name, s.lookAll places))
        names (names.filterMap s.bound?) := by
    intro names hnames
    induction names with
    | nil => exact .nil
    | cons name rest ih =>
      rw [List.forall_mem_cons] at hnames
      obtain ⟨place, hb⟩ := exists_place (hvalues name hnames.1)
      rw [List.filterMap_cons, hb]
      exact .cons (lookText_lookAll hs hb (List.mem_filterMap.2 ⟨name, hnames.1, hb⟩)) (ih hnames.2)
  exact hall _ fun _ h => h

theorem foldl_warn (names : List String) (s : ExecState) :
    names.foldl (fun s name => s.warn (ExecState.undefinedWarning name)) s =
      { s with warnings := s.warnings ++ names.map ExecState.undefinedWarning } := by
  induction names generalizing s with
  | nil => simp
  | cons name rest ih =>
    rw [List.foldl_cons, ih]
    simp [ExecState.warn]

/-- The outcome of a body in a state that can be reached, in terms of the state in which all hosts that are named
have been looked at. -/
theorem synthesize_lookAll {s : ExecState} (hs : s.Reachable) (ns : List Node) :
    let names := usedNames ns
    let looked := s.lookAll (names.filterMap s.bound?)
    let missing := names.filter fun name => (looked.textOf? name).isNone
    synthesize s ns =
      (if missing = [] then some (String.ofList (Text.normalizeText (ns.flatMap (piece looked.textOf?)))) else none,
        names.map s.bound?,
        { looked with warnings := s.warnings ++ missing.map ExecState.undefinedWarning }) := by
  intro names looked missing
  have hwarnings : looked.warnings = s.warnings := by rw [show looked = _ from s.lookAll_eq _]
  have hplaces : (names.map s.bound?).filterMap id = names.filterMap s.bound? := List.filterMap_map
  rw [synthesize, hs.resolveNames_eq]
  simp only
  by_cases hm : missing = []
  · have hvalues : ∀ name ∈ names, (looked.textOf? name).isSome = true := by
      intro name hname
      have hsome := List.filter_eq_nil_iff.1 hm name hname
      simpa [Option.isSome_iff_ne_none] using hsome
    rw [if_pos (List.isEmpty_iff.2 hm), hplaces, assemble_lookAll hs hvalues, if_pos hm, hm, List.map_nil,
      List.append_nil, ← hwarnings]
  · rw [if_neg (by rwa [List.isEmpty_iff]), foldl_warn, if_neg hm, ← hwarnings]

/-- The outcome of a body in a state that can be reached: the hosts bound to the names, in the order of their
uses; the text put together from the pieces, if every name has one once all hosts have been looked at, and else
no text and a warning for each use of a name without; and in the state nothing is changed but what the looks
change: the hosts that are named are as the first look at them leaves them, and the cache has grown by what they
defer. -/
theorem synthesize_pieces {s : ExecState} (hs : s.Reachable) (ns : List Node) :
    let names := usedNames ns
    let places := names.filterMap s.bound?
    let looked := s.lookAll places
    let missing := names.filter fun name => (looked.textOf? name).isNone
    synthesize s ns =
        (if missing = [] then some (String.ofList (Text.normalizeText (ns.flatMap (piece looked.textOf?)))) else none,
          names.map s.bound?,
          { looked with warnings := s.warnings ++ missing.map ExecState.undefinedWarning }) ∧
      looked = { s with hosts := looked.hosts, cache := looked.cache, evaluations := looked.evaluations } ∧
      (∀ place ∉ places, looked.host? place = s.host? place) ∧
      (∀ place ∈ places, ∃ h front back, s.host? place = some h ∧ places = front ++ place :: back ∧ place ∉ front ∧
        looked.host? place = some (h.look (s.lookAll front).cache).1 ∧
        ∀ name, s.bound? name = some place →
          looked.textOf? name = (h.look (s.lookAll front).cache).2.value.map (Host.textOf h.type)) ∧
      s.cache.Sub looked.cache ∧
      ∀ hash value, looked.cache.get? hash = some value → s.cache.get? hash = some value ∨
        ∃ place ∈ places, ∃ d, s.deferredAt place = some d ∧ d.hash = some hash ∧
          d.evaluator.apply d.input = some value := by
  intro names places looked missing
  refine ⟨synthesize_lookAll hs ns, s.lookAll_eq places, fun place hp => ExecState.host?_lookAll_of_not_mem hp,
    fun place hp => ?_, (s.cache_lookAll places).1, (s.cache_lookAll places).2⟩
  obtain ⟨name, -, hb⟩ := List.mem_filterMap.1 hp
  obtain ⟨h, hh⟩ := hs.exists_host hb
  obtain ⟨front, back, hplaces, hfront, hlooked⟩ := ExecState.host?_lookAll_of_mem hp hh
  refine ⟨h, front, back, hh, hplaces, hfront, hlooked, fun name hb => ?_⟩
  rw [ExecState.textOf?, ExecState.hostOf?, ExecState.bound?_lookAll, hb, Option.bind_some, hlooked,
    Option.bind_some, Host.held_look, Host.type_look]

/-- A host that is computed, one that is used twice, and one without a value, together with a name without a
host. -/
theorem synthesize_pieces_repeated :
    let s := (((ExecState.ofContext {}).bind (Host.setContent { name := "x" } (some (.string "a\tb")))).bind
      (Host.setDeferred { name := "y" } ⟨.string "c", some "k", .uppercase⟩)).bind { name := "z" }
    let use (name : String) : Node := .leaf { kind := .varUse, content := name }
    let ns : List Node := [use "y", .leaf { kind := .sep, value := some (.int 3) }, use "x",
      .leaf { kind := .literal, content := "d" }, use "x"]
    s.Reachable ∧ (synthesize s ns).1 = some "C\n\n\na b d a b" ∧
      (synthesize s ns).2.1 = [some 1, some 0, some 0] ∧ (synthesize s ns).2.2.warnings = [] ∧
      (synthesize s (use "w" :: use "z" :: ns)).1 = none ∧
      (synthesize s (use "w" :: use "z" :: ns)).2.2.warnings =
        ["Variable \"w\" is not defined", "Variable \"z\" is not defined"] := by
  intro s use ns
  have hs : s.Reachable :=
    .bind (.bind (.bind (.start {}) (.setContent (.new "x") _)) (.edit (.new "y") rfl rfl)) (.new "z")
  obtain ⟨h, -⟩ := synthesize_pieces hs ns
  obtain ⟨hmissing, -⟩ := synthesize_pieces hs (use "w" :: use "z" :: ns)
  refine ⟨hs, ?_, ?_, ?_, ?_, ?_⟩
  · rw [h]
    decide +kernel
  · rw [h]
    decide +kernel
  · rw [h]
    decide +kernel
  · rw [hmissing]
    decide +kernel
  · rw [hmissing]
    decide +kernel

end Evomark
