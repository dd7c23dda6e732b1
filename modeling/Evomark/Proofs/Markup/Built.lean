import Evomark.Proofs.Document.Reworks
import Evomark.Proofs.Markup.Progress
import Evomark.Proofs.Markup.Slots
/-!
# A reader makes what a source gives

A reader puts below its current node just what the segments of its window give, and warnings below the
root (`Made.Gives`). It does so by edits at attached nodes only. Each step takes the segment that its window
starts with (`takes_step`). So a source, read from the start, is made into the document, the settings and
the verdict that `parse` gives (`core_ofSource`), and what holds of the steps holds of its parsing
(`steps_goOn`).
-/

namespace Evomark.Markup

/-- Nodes below `p`, and warnings below the root. -/
def below (p : Nat) (ns : List Node) (messages : List String) (q : Nat) : List Node :=
  (if q = p then ns else []) ++ if q = Tree.root then messages.map warningNode else []

theorem below_append {p : Nat} (hp : p ≠ Tree.root) (ns ns' : List Node) (messages messages' : List String)
    (q : Nat) :
    below p ns messages q ++ below p ns' messages' q = below p (ns ++ ns') (messages ++ messages') q := by
  by_cases hq : q = p
  · subst hq
    simp [below, hp]
  · simp [below, hq]
    split <;> rfl

/-- Below a body stands what its segments give, below the root what is wrong with them. -/
theorem flatMap_below {p : Nat} (hp : p ≠ Tree.root) (fs : List Finding) (q : Nat) :
    (fs.flatMap fun f => below p f.node.toList f.warnings q) =
      below p (fs.filterMap (·.node)) (fs.flatMap (·.warnings)) q := by
  induction fs with
  | nil => simp [below]
  | cons f rest ih =>
    rw [List.flatMap_cons, ih, below_append hp, List.flatMap_cons, List.filterMap_cons]
    cases f.node <;> rfl

/-- What a reader has made. -/
structure Made where
  tree : Tree
  config : Table Json
  aborted : Bool

/-- What the reader has made. -/
def Reader.made (r : Reader) : Made := ⟨r.tree, r.config, r.aborted⟩

/-- From `m` reading has come to `m'` by edits at attached nodes, which have added documents and settings;
`complete` says whether all windows on the way were read to their ends. -/
structure Made.Gives (m m' : Made) (added : Nat → List Node) (settings : List (String × Table Json))
    (complete : Bool) : Prop where
  edits : m.tree.Edits m'.tree
  grown : m.tree.Extends m'.tree added
  config : m'.config = overlay m.config settings
  aborted : m'.aborted = (m.aborted || !complete)

namespace Made.Gives

variable {m m' m₂ : Made} {a a' : Nat → List Node} {settings settings' : List (String × Table Json)}
  {complete complete' : Bool}

theorem refl (m : Made) : m.Gives m (fun _ => []) [] true := ⟨.refl, .refl _, rfl, (Bool.or_false _).symm⟩

theorem congr (h : m.Gives m' a settings complete) (heq : ∀ q, q < m.tree.slots.size → a q = a' q) :
    m.Gives m' a' settings complete :=
  ⟨h.edits, h.grown.congr heq, h.config, h.aborted⟩

theorem trans (h : m.Gives m' a settings complete) (h' : m'.Gives m₂ a' settings' complete')
    (hold : ∀ q, m.tree.slots.size ≤ q → a' q = []) :
    m.Gives m₂ (fun q => a q ++ a' q) (settings ++ settings') (complete && complete') := by
  refine ⟨h.edits.trans h'.edits, h.grown.trans h'.grown hold, ?_, ?_⟩
  · rw [h'.config, h.config, overlay, overlay, overlay, List.foldl_append]
  · rw [h'.aborted, h.aborted, Bool.or_assoc, Bool.not_and]

end Made.Gives

/-- The tree is sound, and nodes can be put below `p`. -/
structure Ready (t : Tree) (p : Nat) : Prop where
  sound : t.Sound
  attached : t.isAttached p = true

theorem Made.Gives.ready {m m' : Made} {a : Nat → List Node} {settings : List (String × Table Json)}
    {complete : Bool} {p : Nat} (h : m.Gives m' a settings complete) (hm : Ready m.tree p) :
    Ready m'.tree p := ⟨h.edits.sound hm.sound, h.grown.isAttached hm.attached⟩

namespace Ready

variable {t : Tree} {p : Nat} (h : Ready t p)

include h

theorem lt : p < t.slots.size := Tree.lt_of_isAttached h.attached

theorem root : Ready t Tree.root := ⟨h.sound, h.sound.root_attached⟩

/-- A new node is not the root. -/
theorem fresh : t.slots.size ≠ Tree.root := Nat.ne_of_gt h.root.lt

/-- Nothing is put below slots that are not there yet. -/
theorem below_eq_nil {ns : List Node} {messages : List String} {q : Nat} (hq : t.slots.size ≤ q) :
    below p ns messages q = [] := by
  have := h.lt
  have := h.root.lt
  rw [below, if_neg (by omega), if_neg (by omega), List.append_nil]

theorem pushChild (label : Label) : Ready (t.pushChild p label).2 t.slots.size := by
  refine ⟨(Tree.Edit.push p label).sound_apply h.sound h.attached, ?_⟩
  exact ((Tree.added_pushChild h.lt label).isAttached_iff _).2 (.inl rfl)

end Ready

theorem readSettings_spec (space : String) (param : Option Json) (raw : String) :
    (readSettings space param raw).content = raw ∧ (readSettings space param raw).warnings = [] ∧
      (readSettings space param raw).complete = true ∧
      ∀ n ∈ (readSettings space param raw).children, n.children = [] := by
  rw [readSettings]
  split <;> exact ⟨rfl, rfl, rfl, fun n hn => by rw [List.mem_singleton.1 hn]; rfl⟩

namespace Reader

/-! ## New nodes -/

section

variable {r r' : Reader} {m : Made} {ns : List Node} {messages : List String}
  {settings : List (String × Table Json)} {complete : Bool}

/-- What a new node gets is part of it. -/
theorem gives_under (hr : Ready r.tree r.current) {label : Label}
    (h : (r.push label).2.made.Gives m (below r.tree.slots.size ns messages) settings complete) :
    r.made.Gives m (below r.current [⟨label, ns⟩] messages) settings complete := by
  refine ⟨(Tree.Edits.edit (.push r.current label) hr.attached).trans h.edits, ?_, h.config, h.aborted⟩
  refine (Tree.Extends.under hr.lt h.grown).congr fun q hq => ?_
  rw [below, below, if_pos rfl, if_neg hr.fresh, List.append_nil, below, if_neg (Nat.ne_of_lt hq),
    List.nil_append]

/-- The children of a node that has just been made are the nodes that were put below it. -/
theorem hasOnlyParams_eq (hr : Ready r.tree r.current) {label : Label}
    (h : (r.push label).2.made.Gives r'.made (below r.tree.slots.size ns messages) settings complete) :
    r'.hasOnlyParams r.tree.slots.size = (ns.map (·.label)).all (·.kind == .funcParam) := by
  have hslot := Tree.slot?_pushChild label r.tree.slots.size hr.lt
  obtain ⟨ids, hids, hholds⟩ := h.grown.slot? (hslot.trans (if_pos rfl))
  rw [below, if_pos rfl, if_neg hr.fresh, List.append_nil] at hholds
  have hchildren : r'.tree.children r.tree.slots.size = ids := by
    rw [Tree.children, show r'.tree.slot? r.tree.slots.size = _ from hids]
    rfl
  have hlabels : ids.map r'.tree.label = ns.map (·.label) := hholds.map_label
  rw [hasOnlyParams, hchildren, ← hlabels, List.all_map]
  rfl

theorem gives_push (hr : Ready r.tree r.current) (label : Label) :
    r.made.Gives (r.push label).2.made (below r.current [.leaf label] []) [] true := by
  refine gives_under hr ((Made.Gives.refl _).congr fun q _ => ?_)
  simp [below]

theorem gives_warn (hr : Ready r.tree r.current) (message : String) :
    r.made.Gives (r.warn message).made (below r.current [] [message]) [] true := by
  have h := gives_push (r := { r with current := Tree.root }) hr.root (warningNode message).label
  refine Made.Gives.congr h fun q _ => ?_
  simp only [below, ite_self, List.nil_append, List.map_nil, List.append_nil, List.map_cons]
  rfl

/-- A node that is taken back leaves a warning only. -/
theorem gives_takeBack (hr : Ready r.tree r.current) (label : Label) (message : String) :
    let back : Reader := { (r.push label).2 with tree := (r.push label).2.tree.remove r.tree.slots.size }
    r.made.Gives (back.warn message).made (below r.current [] [message]) [] true := by
  intro back
  have hpush := Tree.Edits.edit (.push r.current label) hr.attached
  have hremove := Tree.Edits.edit (t := (r.push label).2.tree) (.remove r.tree.slots.size)
    (hr.pushChild label).attached
  have hback : r.made.Gives back.made (fun _ => []) [] true :=
    ⟨hpush.trans hremove, Tree.extends_remove_pushChild hr.sound hr.lt label, rfl, (Bool.or_false _).symm⟩
  have hwarn := gives_warn (r := back) (hback.ready hr) message
  exact (hback.trans hwarn fun q hq => hr.below_eq_nil hq).congr fun q _ => rfl

theorem gives_pushLeaves (hr : Ready r.tree r.current) (hroot : r.current ≠ Tree.root)
    (hns : ∀ n ∈ ns, n.children = []) :
    r.made.Gives (r.pushLeaves ns).made (below r.current ns []) [] true := by
  induction ns generalizing r with
  | nil => exact (Made.Gives.refl _).congr fun q _ => by simp [below]
  | cons n rest ih =>
    obtain ⟨hn, hrest⟩ := List.forall_mem_cons.1 hns
    have hpush := gives_push hr n.label
    have hpushed : Ready (r.push n.label).2.tree r.current := hpush.ready hr
    refine (hpush.trans (ih hpushed hroot hrest) fun q hq => hr.below_eq_nil hq).congr fun q _ => ?_
    obtain ⟨label, children⟩ := n
    obtain rfl : children = [] := hn
    exact below_append hroot _ _ _ _ q

end

/-- What the reader has made is what the segments of its window give. -/
def GivesContents (g : Grammar) (r : Reader) (found : Bool × Reader) : Prop :=
  r.made.Gives found.2.made
    (fun q => (contents g r.rest).findings.flatMap fun f => below r.current f.node.toList f.warnings q)
    ((contents g r.rest).findings.flatMap (·.settings)) (contents g r.rest).complete

/-- A step takes what is found in front of its window, or nothing if nothing is found. -/
def Takes (r : Reader) (found : Bool × Reader) : Option (Finding × Window) → Prop
  | none => found.1 = false
  | some (f, rest) => found.1 = true ∧ found.2.rest = rest ∧
    r.made.Gives found.2.made (below r.current f.node.toList f.warnings) f.settings f.complete

theorem Takes.orElse {r : Reader} {found other : Bool × Reader} {o o' : Option (Finding × Window)}
    (h : r.Takes found o) (h' : r.Takes other o') :
    r.Takes (if found.1 then found else other) (o.or o') := by
  cases o with
  | none =>
    rw [if_neg (Bool.eq_false_iff.1 h)]
    exact h'
  | some o =>
    rw [if_pos h.1]
    exact h

/-- A name is followed by its clauses. -/
theorem call?_of_startsWith {r : Reader} {sigil : Char} (hs : r.startsWith sigil = true) :
    Segment.call? sigil r.rest =
      some (⟨r.rest.tail.name, r.behindName.rest.clauses.1⟩, r.behindName.rest.clauses.2) := by
  rw [startsWith] at hs
  rw [Segment.call?, if_pos hs]
  rfl

theorem call?_of_not_startsWith {r : Reader} {sigil : Char} (hs : ¬r.startsWith sigil = true) :
    Segment.call? sigil r.rest = none := by
  rw [startsWith] at hs
  rw [Segment.call?, if_neg hs]

/-- Behind clauses stands no further one. -/
theorem read?_clauses (w : Window) : Clause.read? w.clauses.2 = none := by
  fun_induction Window.clauses w with
  | case1 w h => exact h
  | case2 w clause next h more rest hn ih =>
    rw [hn] at ih
    exact ih

theorem read?_of_calls? {w rest : Window} {call : Call} {nested : List Call}
    (h : Segment.calls? w = some (call, nested, rest)) : Clause.read? rest = none := by
  have hcall {w rest : Window} {call : Call} (h : Segment.call? '#' w = some (call, rest)) :
      Clause.read? rest = none := by
    rw [Segment.call?] at h
    split at h
    · obtain ⟨-, rfl⟩ := Prod.mk.inj (Option.some.inj h)
      exact read?_clauses _
    · cases h
  fun_induction Segment.calls? w generalizing call nested rest with
  | case1 => cases h
  | case2 w c stop hc _ next more rest' hn ih =>
    obtain ⟨-, -, rfl⟩ : _ ∧ _ ∧ _ := by simpa using h
    exact ih hn
  | case3 w c stop hc =>
    obtain ⟨-, -, rfl⟩ : _ ∧ _ ∧ _ := by simpa using h
    exact hcall hc
  | case4 w c stop hc =>
    obtain ⟨-, -, rfl⟩ : _ ∧ _ ∧ _ := by simpa using h
    exact hcall hc

theorem takes_prose {g : Grammar} (r : Reader) (hr : Ready r.tree r.current) :
    r.Takes r.prose ((Segment.prose? r.rest).map (Prod.map (readSegment g (contents g)) id)) := by
  rw [prose, Segment.prose?]
  simp only
  split
  · rfl
  · refine ⟨rfl, rfl, ?_⟩
    simp only [readSegment]
    split
    · exact (Made.Gives.refl _).congr fun q _ => by simp [below]
    · exact gives_push hr _

section

variable {n : Nat} {read : Reads n} {g : Grammar}
  (hread : ∀ (r : Reader) (h : r.rest.length < n), Ready r.tree r.current → r.GivesContents g (read r h))

include hread

/-! ## Bodies -/

/-- The current node keeps its text, if the rule leaves one, before anything is put below it. -/
theorem gives_runRule (rule : BodyRule) (param : Option Json) (r : Reader) (h : r.rest.length < n)
    (hr : Ready r.tree r.current) (hroot : r.current ≠ Tree.root) (hwindow : r.window = r.rest)
    (hempty : r.keep "" = r) :
    let inside := readBody (contents g) rule param r.rest
    (r.keep inside.content).made.Gives (runRule read rule param r h).2.made
      (below r.current inside.children inside.warnings) inside.settings inside.complete := by
  have hkept (content : String) : Ready (r.keep content).tree r.current := by
    refine ⟨hr.sound.modify_label r.current fun label => { label with content }, ?_⟩
    exact (r.tree.modify_label r.current (fun label => { label with content }) r.current).1.trans hr.attached
  have hnone {r' : Reader} : r'.made.Gives r'.made (below r.current [] []) [] true :=
    (Made.Gives.refl _).congr fun q _ => by simp [below]
  cases rule with
  | box =>
    show (r.keep "").made.Gives _ _ _ _
    rw [hempty]
    exact (hread r h hr).congr fun q _ => flatMap_below hroot _ q
  | code =>
    rw [runRule, takeRaw, hwindow]
    exact hnone
  | literal =>
    show (r.keep "").made.Gives _ _ _ _
    rw [hempty]
    exact gives_pushLeaves hr hroot fun _ hn => (isItem_of_mem_literalNodesFrom hn).children_eq_nil
  | config space =>
    obtain ⟨hcontent, hwarnings, hcomplete, hleaves⟩ :=
      readSettings_spec space param (String.ofList r.rest.chars)
    rw [runRule, takeRaw, hwindow]
    simp only [readBody, hcontent, hwarnings, hcomplete]
    have hpushed := gives_pushLeaves (r := r.finish.keep (String.ofList r.rest.chars)) (hkept _) hroot hleaves
    refine ⟨hpushed.edits, hpushed.grown, ?_, hpushed.aborted⟩
    exact congrArg (overlay · (readSettings space param (String.ofList r.rest.chars)).settings) hpushed.config
  | reject =>
    show (r.keep "").made.Gives _ _ _ _
    rw [hempty]
    exact hnone
  | shout =>
    show (r.keep "").made.Gives _ _ _ _
    rw [hempty, runRule, hwindow]
    exact gives_pushLeaves hr hroot fun _ hn => by rw [List.mem_singleton.1 hn]; rfl

/-- A body, made with an empty text, has in the end the text that its rule leaves. -/
theorem gives_body (rule : BodyRule) (param : Option Json) (r : Reader) (hr : Ready r.tree r.current)
    (label : Label) (hlabel : label.content = "") (inner : Window) (h : inner.length < n) :
    let inside := readBody (contents g) rule param inner
    r.made.Gives (body read rule param (r.push label).1 inner (r.push label).2 h).made
      (below r.current [⟨{ label with content := inside.content }, inside.children⟩] inside.warnings)
      inside.settings inside.complete := by
  intro inside
  let opened : Reader := { (r.push label).2 with window := inner, rest := inner, current := (r.push label).1 }
  have hkeep (content : String) :
      (opened.keep content).tree = (r.push { label with content }).2.tree :=
    Tree.relabel_pushChild hr.lt label fun label => { label with content }
  have hempty : opened.keep "" = opened := by
    have hsame : { label with content := "" } = label := by rw [← hlabel]
    have htree := hkeep ""
    rw [hsame] at htree
    exact congrArg (fun tree => { opened with tree }) htree
  have hrun := gives_runRule hread rule param opened h (hr.pushChild label) hr.fresh rfl hempty
  refine gives_under hr ?_
  have hmade : (opened.keep inside.content).made = (r.push { label with content := inside.content }).2.made :=
    congrArg (fun tree => (⟨tree, r.config, r.aborted⟩ : Made)) (hkeep inside.content)
  rw [← hmade]
  exact hrun

/-- Clauses give their nodes one after the other. -/
theorem gives_clauses (rule : BodyRule) (kind : Kind) (param : Option Json) (r : Reader)
    (h : r.rest.length ≤ n) (hr : Ready r.tree r.current) (hroot : r.current ≠ Tree.root) :
    let parts := readClauses (contents g) rule kind param r.rest.clauses.1
    r.made.Gives (clauses read rule kind param r h).2.made (below r.current parts.nodes parts.warnings)
      parts.settings parts.complete := by
  fun_induction clauses read rule kind param r h with
  | case1 param r h hc =>
    rw [Window.clauses_of_none hc]
    exact (Made.Gives.refl _).congr fun q _ => by simp [below, readClauses]
  | case2 param r h raw value span rest hc opened ih =>
    rw [Window.clauses_of_read? hc]
    have hopened := gives_push (r := { r with rest }) hr
      { kind := .funcParam, content := raw, value := some value, span := some span }
    have hmore := ih (hopened.ready hr) hroot
    refine (hopened.trans hmore fun q hq => hr.below_eq_nil hq).congr fun q _ => ?_
    exact below_append hroot _ _ _ _ q
  | case3 param r h layout inner rest hc opened ih =>
    rw [Window.clauses_of_read? hc]
    have hbody := gives_body hread rule param { r with rest } hr
      { kind, layout := some layout, span := some ⟨inner.offset, inner.stop⟩ } rfl inner
      (Nat.lt_of_lt_of_le (Clause.within_read? hc) h)
    have hmore := ih (hbody.ready hr) hroot
    refine (hbody.trans hmore fun q hq => hr.below_eq_nil hq).congr fun q _ => ?_
    exact below_append hroot _ _ _ _ q

/-! ## Constructs -/

/-- A function, with the functions it hosts. -/
theorem takes_function (r : Reader) (h : r.rest.length ≤ n) (hr : Ready r.tree r.current) :
    r.Takes (function read g r h) ((Segment.calls? r.rest).map fun (call, nested, rest) =>
      (readFunction g (contents g) call nested, rest)) := by
  rw [function_eq]
  split
  · rename_i hs
    have hcall := call?_of_startsWith hs
    have hopened : Ready (r.named .func).2.tree (r.named .func).1 := hr.pushChild _
    have hlength := Nat.le_of_lt (length_behindName hs)
    have hgives := gives_clauses hread (g.functionRule r.rest.tail.name) .funcBody none (r.named .func).2
      (Nat.le_trans hlength h) hopened hr.fresh
    have hparams := hasOnlyParams_eq (r := r.behindName) hr hgives
    rw [kinds_readClauses _ _ .funcBody nofun] at hparams
    have hrest := rest_clauses read (g.functionRule r.rest.tail.name) .funcBody none (r.named .func).2
      (Nat.le_trans hlength h)
    have hcurrent := current_clauses read (g.functionRule r.rest.tail.name) .funcBody none (r.named .func).2
      (Nat.le_trans hlength h)
    have hshort : (clauses read (g.functionRule r.rest.tail.name) .funcBody none (r.named .func).2
        (Nat.le_trans hlength h)).2.rest.length < r.rest.length :=
      Nat.lt_of_le_of_lt (length_clauses_le read) (length_behindName hs)
    obtain ⟨front, hfront⟩ : ∃ front, front = clauses read (g.functionRule r.rest.tail.name) .funcBody none
      (r.named .func).2 (Nat.le_trans hlength h) := ⟨_, rfl⟩
    simp only [← hfront] at hgives hparams hrest hcurrent hshort ⊢
    have hready : Ready front.2.tree front.2.current := hcurrent ▸ hgives.ready hopened
    split
    · rename_i hhost
      rw [Bool.and_eq_true] at hhost
      -- the function below the body, behind which no clause is left
      have hhosted := takes_function (front.2.enter { kind := .funcBody, layout := some .directChild }).2
        (Nat.le_trans (Nat.le_of_lt hshort) h) (hready.pushChild _)
      obtain ⟨next, more, rest, hcalls⟩ := Segment.exists_calls? (call?_of_startsWith hhost.2)
      rw [Segment.calls?_of_host hcall (hparams.symm.trans hhost.1) (hrest ▸ hcalls), Option.map_some]
      rw [show Segment.calls? (front.2.enter { kind := .funcBody, layout := some .directChild }).2.rest = _
        from hcalls] at hhosted
      obtain ⟨-, hstop, hfound⟩ := hhosted
      rw [clauses_of_read?_none read (hstop ▸ read?_of_calls? hcalls)]
      refine ⟨rfl, hstop, gives_under (r := r.behindName) hr ?_⟩
      have hbody := gives_under hready hfound
      rw [hcurrent] at hbody
      refine (hgives.trans hbody fun q hq => hopened.below_eq_nil hq).congr fun q _ => ?_
      exact below_append hr.fresh _ _ _ _ q
    · rename_i hhost
      rw [Segment.calls?_of_last hcall, Option.map_some]
      · exact ⟨rfl, hrest, gives_under (r := r.behindName) hr hgives⟩
      · intro hall
        have hstart : ¬front.2.startsWith '#' = true := fun hstart =>
          hhost (by rw [Bool.and_eq_true]; exact ⟨hparams.trans hall, hstart⟩)
        have hnone := call?_of_not_startsWith hstart
        rw [hrest] at hnone
        exact hnone
  · rename_i hs
    rw [Segment.calls?_of_call?_none (call?_of_not_startsWith hs)]
    rfl
termination_by r.rest.length
decreasing_by
  rw [← hfront] at hshort
  exact hshort

/-- A command with its clauses. -/
theorem takes_command (r : Reader) (h : r.rest.length ≤ n) (hr : Ready r.tree r.current) :
    r.Takes (command read g r h) ((Segment.call? '$' r.rest).map fun (call, rest) =>
      (readCommand g (contents g) call, rest)) := by
  rw [command]
  split
  · rename_i hs
    rw [call?_of_startsWith hs]
    have hgives := gives_clauses hread (g.commandRule r.rest.tail.name) .body none (r.named .cmd).2
      (Nat.le_trans (Nat.le_of_lt (length_behindName hs)) h) (hr.pushChild _) hr.fresh
    exact ⟨rfl, rest_clauses read _ _ _ _ _, gives_under (r := r.behindName) hr hgives⟩
  · rename_i hs
    rw [call?_of_not_startsWith hs]
    rfl

/-- A reference with its function, or a warning where there is none. -/
theorem takes_reference (r : Reader) (h : r.rest.length ≤ n) (hr : Ready r.tree r.current) :
    r.Takes (reference read g r h)
      ((Segment.reference? r.rest).map (Prod.map (readSegment g (contents g)) id)) := by
  rw [reference, Segment.reference?]
  cases hchars : r.rest.chars with
  | nil => rfl
  | cons c rest =>
    simp only [List.head?_cons, Option.some.injEq]
    split
    · split
      · rename_i ht
        rw [show Segment.afterEquals? r.rest.tail.afterName = none from ht]
        exact ⟨rfl, rfl, gives_warn (r := r.behindName) hr _⟩
      · rename_i target ht
        rw [show Segment.afterEquals? r.rest.tail.afterName = some target from ht]
        simp only
        split
        · have hopened := hr.pushChild { kind := .ref, content := r.rest.tail.name }
          have hfound := takes_function hread
            ({ r with rest := target }.enter { kind := .ref, content := r.rest.tail.name }).2
            (Nat.le_trans (Segment.length_afterEquals? ht) (Nat.le_trans (length_behindName_le r) h)) hopened
          have hadvances := advances_function read g
            ({ r with rest := target }.enter { kind := .ref, content := r.rest.tail.name }).2
            (Nat.le_trans (Segment.length_afterEquals? ht) (Nat.le_trans (length_behindName_le r) h))
          change Takes _ _ (Option.map _ (Segment.calls? target)) at hfound
          cases hcalls : Segment.calls? target with
          | none =>
            rw [hcalls] at hfound
            rw [if_neg (Bool.eq_false_iff.1 hfound), hadvances.unchanged hfound]
            have hwarn := gives_warn (r := { (r.push { kind := .ref, content := r.rest.tail.name }).2 with
              current := r.tree.slots.size }) hopened (referenceWarning r.rest.tail.name)
            exact ⟨rfl, rfl, gives_under hr hwarn⟩
          | some found =>
            obtain ⟨call, nested, rest⟩ := found
            rw [hcalls] at hfound
            rw [if_pos hfound.1]
            exact ⟨rfl, hfound.2.1, gives_under hr hfound.2.2⟩
        · exact ⟨rfl, rfl, gives_warn (r := { r with rest := target }) hr _⟩
    · rfl

/-- A variable, or an assignment with its command, or a warning where there is none. -/
theorem takes_assignment (r : Reader) (h : r.rest.length ≤ n) (hr : Ready r.tree r.current) :
    r.Takes (assignment read g r h)
      ((Segment.assignmentOrUse? r.rest).map (Prod.map (readSegment g (contents g)) id)) := by
  rw [assignment, Segment.assignmentOrUse?, startsWith]
  split
  · simp only
    split
    · rename_i ht
      rw [show Segment.afterEquals? r.rest.tail.afterName = none from ht]
      exact ⟨rfl, rfl, gives_push (r := r.behindName) hr _⟩
    · rename_i target ht
      rw [show Segment.afterEquals? r.rest.tail.afterName = some target from ht]
      have hopened := hr.pushChild { kind := .varAssign, content := r.rest.tail.name }
      have hfound := takes_command hread
        ({ r with rest := target }.enter { kind := .varAssign, content := r.rest.tail.name }).2
        (Nat.le_trans (Segment.length_afterEquals? ht) (Nat.le_trans (length_behindName_le r) h)) hopened
      have hadvances := advances_command read g
        ({ r with rest := target }.enter { kind := .varAssign, content := r.rest.tail.name }).2
        (Nat.le_trans (Segment.length_afterEquals? ht) (Nat.le_trans (length_behindName_le r) h))
      change Takes _ _ (Option.map _ (Segment.call? '$' target)) at hfound
      simp only
      cases hcall : Segment.call? '$' target with
      | none =>
        rw [hcall] at hfound
        rw [if_neg (Bool.eq_false_iff.1 hfound), hadvances.unchanged hfound]
        exact ⟨rfl, rfl, gives_takeBack hr { kind := .varAssign, content := r.rest.tail.name } _⟩
      | some found =>
        obtain ⟨call, rest⟩ := found
        rw [hcall] at hfound
        rw [if_pos hfound.1]
        exact ⟨rfl, hfound.2.1, gives_under hr hfound.2.2⟩
  · rfl

/-- A step takes the segment its window starts with. -/
theorem takes_step (r : Reader) (h : r.rest.length ≤ n) (hr : Ready r.tree r.current) :
    r.Takes (step read g r h) ((Segment.read? r.rest).map (Prod.map (readSegment g (contents g)) id)) := by
  have hor {o o' : Option (Segment × Window)} :
      (o.or o').map (Prod.map (readSegment g (contents g)) id) =
        (o.map (Prod.map (readSegment g (contents g)) id)).or
          (o'.map (Prod.map (readSegment g (contents g)) id)) := by
    cases o <;> rfl
  rw [step_eq, Segment.read?, hor, hor, hor, hor]
  refine (takes_prose r hr).orElse (Takes.orElse ?_ ((takes_reference hread r h hr).orElse
    (Takes.orElse ?_ (takes_assignment hread r h hr))))
  · rw [Segment.function?, Option.map_map]
    exact takes_function hread r h hr
  · rw [Segment.command?, Option.map_map]
    exact takes_command hread r h hr

end

/-! ## Windows -/

theorem contents_of_nil {g : Grammar} {w : Window} (h : w.chars = []) : contents g w = ⟨[], w⟩ := by
  rw [contents_eq, Window.segments, dif_pos h]
  rfl

theorem contents_of_break {g : Grammar} {w : Window} (h : w.chars.head? = some '\n') :
    contents g w = contents g w.tail := by
  have hne : w.chars ≠ [] := fun hnil => by rw [hnil] at h; cases h
  rw [contents_eq, Window.segments, dif_neg hne, if_pos h, ← contents_eq]

theorem contents_of_read? {g : Grammar} {w : Window} (hnil : w.chars ≠ []) (h : w.chars.head? ≠ some '\n') :
    contents g w = match Segment.read? w with
      | none => ⟨[], w⟩
      | some (s, next) =>
        ⟨readSegment g (contents g) s :: (contents g next).findings, (contents g next).rest⟩ := by
  rw [contents_eq, Window.segments, dif_neg hnil, if_neg h]
  split
  · rename_i hread
    rw [hread]
    rfl
  · rename_i s next hread
    rw [hread]
    simp only
    rw [contents_eq g next]
    rfl

/-- A window gives what its segments give. -/
theorem gives_core (g : Grammar) (r : Reader) (hr : Ready r.tree r.current) :
    r.GivesContents g (core g r) := by
  rw [core]
  split
  · rename_i hnil
    rw [GivesContents, contents_of_nil hnil, Contents.complete, hnil]
    exact Made.Gives.refl _
  · rename_i hnil
    split
    · rename_i hbreak
      rw [GivesContents, contents_of_break hbreak]
      exact gives_core g { r with rest := r.rest.tail } hr
    · rename_i hbreak
      have htakes := takes_step (fun r' (_ : r'.rest.length < r.rest.length) hr' => gives_core g r' hr') r
        (Nat.le_refl _) hr
      have hkeeps := keeps_step (fun r' (_ : r'.rest.length < r.rest.length) => (keeps_core g r').parents) g r
        (Nat.le_refl _)
      rw [GivesContents, contents_of_read? hnil hbreak]
      split
      · rename_i r' hs
        rw [hs] at htakes hkeeps
        cases hread : Segment.read? r.rest with
        | none =>
          rw [hread] at htakes
          cases htakes
        | some found =>
          obtain ⟨s, next⟩ := found
          rw [hread] at htakes
          obtain ⟨-, rfl, hfound⟩ := htakes
          have hcurrent : r'.current = r.current := hkeeps.current
          have hmore := gives_core g r' (hcurrent ▸ hfound.ready hr)
          rw [GivesContents, hcurrent] at hmore
          have hboth := hfound.trans hmore fun q hq => by
            simp only [hr.below_eq_nil hq, List.flatMap_eq_nil_iff, implies_true]
          rw [Contents.complete, Bool.and_left_comm] at hboth
          exact hboth
      · rename_i r' hs
        obtain ⟨hsame, -⟩ := head?_of_step _ g r (Nat.le_refl _) hnil hs
        rw [hs] at htakes
        cases hread : Segment.read? r.rest with
        | none =>
          have hrest : r.rest.chars.isEmpty = false :=
            Bool.eq_false_iff.2 fun h => hnil (List.isEmpty_iff.1 h)
          rw [hsame, Contents.complete, hrest]
          exact ⟨.refl, .refl _, rfl, (Bool.or_true _).symm⟩
        | some found =>
          rw [hread] at htakes
          cases htakes.1
termination_by r.rest.length
decreasing_by
  · assumption
  · exact length_of_step ‹_›
  · exact Window.length_tail_lt ‹_›

/-! ## Sources -/

/-- A reader at the start of a source. -/
def ofSource (initial : Table Json) (source : String) : Reader :=
  ⟨.ofSource source, .ofSource source, Tree.root, .empty, initial, false⟩

theorem ready_empty : Ready Tree.empty Tree.root := ⟨Tree.sound_empty, rfl⟩

/-- A source read step by step gives what `parse` gives, by edits at attached nodes of an empty tree. -/
theorem core_ofSource (g : Grammar) (initial : Table Json) (source : String) :
    let r := (core g (ofSource initial source)).2
    let parsed := parse g initial source
    r.tree.document.unslotted = parsed.document ∧ r.config = parsed.config ∧
      r.aborted = !parsed.complete ∧ Tree.empty.Edits r.tree := by
  intro r parsed
  have hgives := gives_core g (ofSource initial source) ready_empty
  refine ⟨?_, hgives.config, hgives.aborted.trans (Bool.false_or _), hgives.edits⟩
  obtain ⟨ids, hids, hholds⟩ := hgives.grown.slot? (q := Tree.root) rfl
  have hadded : ∀ f : Finding, below Tree.root f.node.toList f.warnings Tree.root = f.rootNodes := fun f => by
    rw [below, if_pos rfl, if_pos rfl, Finding.rootNodes]
  have hdocument : r.tree.Holds 0 Tree.root parsed.document := by
    refine Tree.holds_iff.2 ⟨Nat.le_refl _, _, hids, rfl, ?_⟩
    simp only [show (ofSource initial source).current = Tree.root from rfl, hadded] at hholds
    exact hholds.frame (Nat.zero_le _) fun _ hs => hs
  have hsound := hgives.edits.sound Tree.sound_empty
  refine (hdocument.shows.unslotted_subtreeTo hsound _ (Nat.le_add_left _ _)).trans ?_
  exact Node.unslotted_of_slots (slots_parse g initial source)

/-- The steps of a reader make progress or do nothing. A window is therefore read in a way that the rounds
alone determine, to its end or up to a number sign that starts no construct, and a source is made into what
`parse` gives. -/
theorem steps_goOn (g : Grammar) :
    (∀ r : Reader,
      let read : Reads r.rest.length := fun r' _ => core g r'
      let bound : r.rest.length ≤ r.rest.length := Nat.le_refl _
      r.GoesOn r.prose ∧ r.GoesOn (function read g r bound) ∧ r.GoesOn (reference read g r bound) ∧
        r.GoesOn (command read g r bound) ∧ r.GoesOn (assignment read g r bound)) ∧
    (∀ recur : Reader → Bool × Reader, (∀ r, recur r = round g recur r) ↔ recur = core g) ∧
    (∀ r : Reader,
      (core g r).2.window = r.window ∧ (core g r).2.current = r.current ∧
      (core g r).2.rest.stop = r.rest.stop ∧
      ((core g r).1 = true → (core g r).2.rest.offset = r.rest.stop) ∧
      ((core g r).1 = false → (core g r).2.aborted = true ∧ (core g r).2.rest.chars.head? = some '#' ∧
        (core g r).2.startsWith '#' = false)) ∧
    ∀ (initial : Table Json) (source : String),
      let r := (core g (ofSource initial source)).2
      let parsed := parse g initial source
      r.tree.document.unslotted = parsed.document ∧ r.config = parsed.config ∧
        r.aborted = !parsed.complete := by
  refine ⟨fun r => ?_, fun recur => ⟨fun h => funext (eq_core_of_round h), ?_⟩, fun r => ?_,
    fun initial source => ?_⟩
  · intro read bound
    have hread (r' : Reader) (h : r'.rest.length < r.rest.length) := (keeps_core g r').parents
    exact ⟨r.advances_prose.goesOn r.keeps_prose,
      (advances_function read g r bound).goesOn (keeps_function hread g r bound),
      (advances_reference read g r bound).goesOn (keeps_reference hread g r bound),
      (advances_command read g r bound).goesOn (keeps_command hread g r bound),
      (advances_assignment read g r bound).goesOn (keeps_assignment hread g r bound)⟩
  · rintro rfl
    exact core_eq_round g
  · have hkeeps := keeps_core g r
    obtain ⟨hended, hstuck⟩ := core_ends g r
    refine ⟨hkeeps.window, hkeeps.current, hkeeps.leadsTo.stop_eq, fun htrue => ?_, hstuck⟩
    rw [← hkeeps.leadsTo.stop_eq, Window.stop, hended htrue]
    rfl
  · obtain ⟨hdocument, hconfig, haborted, -⟩ := core_ofSource g initial source
    exact ⟨hdocument, hconfig, haborted⟩

end Reader

end Evomark.Markup
