import Evomark.Proofs.Markup.Inner
import Evomark.Proofs.Markup.ReadCall
/-!
# Reading a document back

If the text of a document can be read back, it is read back as the document (`nodeReads`,
`parse_printWith`).
-/

namespace Evomark.Markup

open Node

variable {g : Grammar} {marked : Bool} {unit : List Char} {level : Nat}

/-! ## Lists of nodes -/

theorem clausesText_append (ns ms : List Node) :
    clausesText unit level (ns ++ ms) = clausesText unit level ns ++ clausesText unit level ms := by
  induction ns with
  | nil => rfl
  | cons n rest ih => rw [List.cons_append, clausesText, clausesText, ih, List.append_assoc]

theorem areReadable_iff {ns : List Node} :
    areReadable unit level ns = true ↔ ∀ n ∈ ns, n.isReadable unit level = true := by
  induction ns with
  | nil => simp [areReadable]
  | cons n rest ih => rw [areReadable, Bool.and_eq_true, ih, List.forall_mem_cons]

/-! ## Functions -/

section

/-- What may stand behind a call. -/
def StopsCall (rest : List Char) : Prop := ∀ c, rest.head? = some c → c = ' ' ∨ c = '\n'

theorem StopsCall.clauses {rest : List Char} (h : StopsCall rest) : StopsClauses rest := by
  intro c hc
  rcases h c hc with rfl | rfl <;> decide

theorem StopsCall.call? {rest : List Char} (h : StopsCall rest) {sigil : Char} (hs : sigil = '#' ∨ sigil = '$')
    (offset : Nat) : Segment.call? sigil ⟨offset, rest⟩ = none := by
  rw [Segment.call?, if_neg]
  intro hstart
  cases rest with
  | nil => simp [Window.startsConstruct] at hstart
  | cons c more =>
    have hc : c = sigil := by
      cases more with
      | nil => simp [Window.startsConstruct] at hstart
      | cons d tail =>
        simp only [Window.startsConstruct, Bool.and_eq_true, beq_iff_eq] at hstart
        exact hstart.1
    rcases h c rfl with rfl | rfl <;> rcases hs with rfl | rfl <;> exact absurd hc (by decide)

theorem StopsCall.head?_append {text rest : List Char} (h : StopsCall rest)
    (ht : ∀ c, text.head? = some c → Window.isNameChar c = false) :
    ∀ c, (text ++ rest).head? = some c → Window.isNameChar c = false := by
  intro c hc
  rw [List.head?_append] at hc
  cases hhead : text.head? with
  | some d =>
    rw [hhead] at hc
    obtain rfl := Option.some.inj hc
    exact ht d hhead
  | none =>
    rw [hhead] at hc
    rcases h c hc with rfl | rfl <;> rfl

/-- The text of a function, with those that it hosts, is read as this function. -/
def ReadsFunction (g : Grammar) (text : List Char) (n : Node) : Prop :=
  ∀ offset rest, StopsCall rest →
    ∃ call nested stop, Segment.calls? ⟨offset, text ++ rest⟩ = some (call, nested, ⟨stop, rest⟩) ∧
      ∀ fuel, text.length ≤ fuel → (readFunction g (readWindow g fuel) call nested).Gives n

/-- The functions hosted below a call are read back. -/
def HostsRead (g : Grammar) (unit : List Char) (level : Nat) (ns : List Node) : Prop :=
  ∀ n ∈ ns, n.kind.isBody = true → n.label.layout = some .directChild → ∀ m ∈ n.children, m.kind = .func →
    ReadsFunction g (nodeText unit level m) m.reread

theorem nodeText_of_func (unit : List Char) (level : Nat) {n : Node} (h : n.kind = .func) :
    ∃ more, nodeText unit level n = '#' :: more := by
  obtain ⟨label, children⟩ := n
  have h : label.kind = .func := h
  rw [nodeText, h]
  exact ⟨_, rfl⟩

/-- A call that another call hosts is written right behind it. -/
theorem clausesText_host {label : Label} {m : Node} (hk : label.kind.isBody = true)
    (hl : label.layout = some .directChild) :
    clausesText unit level [⟨label, [m]⟩] = nodeText unit level m := by
  rw [clausesText_of_isClause _ _ _ _ (isClause_of_isBody hk), nodeText_of_isBody _ _ _ hk, if_pos hl, callText,
    clausesText, List.append_nil]

theorem rereadAll_host {label : Label} {m : Node} (hk : label.kind = .funcBody) (hv : label.value = none)
    (hl : label.layout = some .directChild) (hc : label.content = "") (hm : m.kind = .func) :
    rereadAll [⟨label, [m]⟩] = [⟨{ kind := .funcBody, layout := some .directChild }, [m.reread]⟩] := by
  have hkbody : label.kind.isBody = true := by rw [hk]; rfl
  have hnot : label.kind ≠ .sep ∧ label.kind ≠ .literal := by simp [hk]
  have hmnot : ¬ (m.kind = .sep ∨ m.kind = .literal) := by simp [hm]
  rw [rereadAll_clause hnot, reread_body hkbody hv (by rw [hl]; rfl), hk, hc, hl, reread, hk]
  simp only [rereadAll, if_neg hmnot]
  rfl

theorem stopsClauses_of_func {m : Node} (hm : m.kind = .func) (rest : List Char) :
    StopsClauses (nodeText unit level m ++ rest) := by
  obtain ⟨more, hmore⟩ := nodeText_of_func unit level hm
  intro c hc
  rw [hmore] at hc
  obtain rfl := Option.some.inj hc
  decide

theorem readsFunction (hu : ∀ c ∈ unit, Text.isBlank c = true) (hg : g.Keeps) {label : Label}
    {children : List Node} (hk : label.kind = .func) (h : IsElement g marked ⟨label, children⟩)
    (hr : areReadable unit level children = true) (hbodies : BodiesRead g marked unit level children)
    (hhosts : HostsRead g unit level children) :
    ReadsFunction g (nodeText unit level ⟨label, children⟩) (Node.reread ⟨label, children⟩) := by
  intro offset rest hrest
  unfold IsElement at h
  rw [hk] at h
  obtain ⟨⟨hv, hl⟩, hname, hclauses⟩ := h
  have hrule := hg.literal_function label.content
  have hlabel : label.unplaced = { kind := .func, content := label.content } := by
    rw [← hk, ← hv, ← hl]
    rfl
  have htext : nodeText unit level ⟨label, children⟩ =
      '#' :: label.content.toList ++ clausesText unit level children := by
    rw [nodeText, hk]
  rw [htext, reread, hk, hlabel]
  have hhead := @head?_clausesText g marked unit level _ _ rfl _ _ _ hclauses
  have hcall := call?_eq '#' hname (hrest.head?_append hhead) offset
  generalize offset + Text.byteLength _ = start at hcall
  rw [← List.append_assoc] at hcall
  obtain hn | ⟨front, label', children', rfl, -, hfront, hparams, hk', hv', hl', hc', hhost⟩ := hclauses.split
  · obtain ⟨clauses, stop, hread, hgives, hall⟩ := clauses_gives hu rfl hrule hrest.clauses hn hr hbodies
      hclauses (rfl : languageOf none = languageOf none) start
    rw [hread] at hcall
    refine ⟨_, [], stop, Segment.calls?_of_last hcall fun _ => hrest.call? (.inl rfl) stop, fun fuel hf => ?_⟩
    rw [List.length_append] at hf
    obtain ⟨hcomplete, hwarnings, hnodes⟩ := hgives fuel (by omega)
    refine ⟨hcomplete, hwarnings, ?_⟩
    rw [← hnodes]
    rfl
  · cases children' with
    | nil => exact hhost.elim
    | cons m tail =>
      unfold IsCall at hhost
      obtain ⟨hm, rfl, -⟩ := hhost
      have hkbody : label'.kind.isBody = true := by rw [hk']; rfl
      have htail : clausesText unit level [⟨label', [m]⟩] = nodeText unit level m := clausesText_host hkbody hl'
      have hfrontreadable : areReadable unit level front = true :=
        areReadable_iff.2 fun n hn => areReadable_iff.1 hr n (List.mem_append_left _ hn)
      obtain ⟨clauses, stop, hread, hgives, hall⟩ := clauses_gives hu rfl hrule (stopsClauses_of_func hm rest)
        (fun n hn hb => absurd hb (by rw [hparams n hn]; decide)) hfrontreadable
        (fun n hn => hbodies n (List.mem_append_left _ hn)) hfront (rfl : languageOf none = languageOf none) start
      obtain ⟨next, nested, last, hnext, hhosted⟩ :=
        hhosts _ (List.mem_append_right _ (.head _)) hkbody hl' m (.head _) hm stop rest hrest
      rw [clausesText_append, htail, List.append_assoc (clausesText unit level front), hread] at hcall
      rw [clausesText_append, htail]
      refine ⟨_, next :: nested, last, Segment.calls?_of_host hcall (hall.2 hparams) hnext, fun fuel hf => ?_⟩
      simp only [List.length_append] at hf
      obtain ⟨hcomplete, hwarnings, hnodes⟩ := hgives fuel (by omega)
      obtain ⟨hcomplete', hwarnings', hnode'⟩ := hhosted fuel (by omega)
      refine ⟨?_, ?_, ?_⟩
      · simp only [readFunction, hcomplete, hcomplete', Bool.and_self]
      · simp only [readFunction, hwarnings, hwarnings', List.append_nil]
      · obtain ⟨hosted, hhosted, hsame⟩ := Option.map_eq_some_iff.1 hnode'
        rw [rereadAll_append, rereadAll_host hk' hv' hl' hc' hm, ← hnodes, ← hsame]
        simp only [readFunction, hhosted, directBody, Option.map_some, Node.unplaced, unplacedAll_append]
        rfl

/-! ## Commands -/

/-- The text of a command is read as this command. -/
def ReadsCommand (g : Grammar) (text : List Char) (n : Node) : Prop :=
  ∀ offset rest, StopsCall rest →
    ∃ call stop, Segment.call? '$' ⟨offset, text ++ rest⟩ = some (call, ⟨stop, rest⟩) ∧
      ∀ fuel, text.length ≤ fuel → (readCommand g (readWindow g fuel) call).Gives n

theorem readsCommand (hu : ∀ c ∈ unit, Text.isBlank c = true) (hg : g.Keeps) {label : Label}
    {children : List Node} (hk : label.kind = .cmd) (h : IsElement g marked ⟨label, children⟩)
    (hr : areReadable unit level children = true) (hbodies : BodiesRead g marked unit level children) :
    ReadsCommand g (nodeText unit level ⟨label, children⟩) (Node.reread ⟨label, children⟩) := by
  intro offset rest hrest
  unfold IsElement at h
  rw [hk] at h
  obtain ⟨⟨hv, hl⟩, hname, hclauses⟩ := h
  have hlabel : label.unplaced = { kind := .cmd, content := label.content } := by
    rw [← hk, ← hv, ← hl]
    rfl
  have htext : nodeText unit level ⟨label, children⟩ =
      '$' :: label.content.toList ++ clausesText unit level children := by
    rw [nodeText, hk]
  rw [htext, reread, hk, hlabel]
  have hhead := @head?_clausesText g marked unit level _ _ rfl _ _ _ hclauses
  have hcall := call?_eq '$' hname (hrest.head?_append hhead) offset
  generalize offset + Text.byteLength _ = start at hcall
  rw [← List.append_assoc] at hcall
  obtain hn | ⟨-, -, -, -, hh, -⟩ := hclauses.split
  · obtain ⟨clauses, stop, hread, hgives, hall⟩ := clauses_gives hu rfl
      (hg.literal_command label.content) hrest.clauses hn hr hbodies hclauses
      (rfl : languageOf none = languageOf none) start
    rw [hread] at hcall
    refine ⟨_, stop, hcall, fun fuel hf => ?_⟩
    rw [List.length_append] at hf
    obtain ⟨hcomplete, hwarnings, hnodes⟩ := hgives fuel (by omega)
    refine ⟨hcomplete, hwarnings, ?_⟩
    rw [← hnodes]
    rfl
  · exact absurd hh (by decide)

end

/-! ## Elements -/

theorem starts_sign {sign : Char} (hs : sign = '$' ∨ sign = '%') {name : String} (hname : IsName name)
    (more : List Char) : Segment.Starts (sign :: name.toList ++ more) := by
  obtain ⟨c, rest, hc, hstart, -⟩ := hname
  refine ⟨sign, _, rfl, .inr (.inr ⟨hs, ?_⟩)⟩
  rw [hc]
  simp [Window.startsConstruct, hstart]

/-- A node in a box starts as one. -/
theorem starts_nodeText {n : Node} (h : IsElement g marked n) (hk : n.kind ≠ .text) :
    Segment.Starts (nodeText unit level n) := by
  obtain ⟨label, children⟩ := n
  unfold IsElement at h
  rw [nodeText]
  cases hkind : label.kind <;> rw [hkind] at h <;> try exact h.2.elim
  case text => exact absurd hkind hk
  case func => exact ⟨'#', _, rfl, .inl rfl⟩
  case ref => exact ⟨'@', _, rfl, .inr (.inl rfl)⟩
  case cmd => exact starts_sign (.inl rfl) h.2.1 _
  case varUse =>
    have hstarts := starts_sign (.inr rfl) h.2.1 []
    rwa [List.append_nil] at hstarts
  case varAssign =>
    have hstarts := starts_sign (.inr rfl) h.2.1 ([' ', '=', ' '] ++ callText unit level children)
    rwa [← List.append_assoc] at hstarts

theorem read?_of_prose {w : Window} (h : Segment.splitProse w.chars = ([], w.chars)) :
    Segment.read? w = (Segment.function? w).or
      ((Segment.reference? w).or ((Segment.command? w).or (Segment.assignmentOrUse? w))) := by
  have hprose : Segment.prose? w = none := by
    rw [Segment.prose?]
    simp only [h]
    rfl
  rw [Segment.read?, hprose, Option.none_or]

theorem function?_none {w : Window} {c : Char} (hc : w.chars.head? = some c) (hs : c ≠ '#') :
    Segment.function? w = none := by
  have hcall : Segment.call? '#' w = none := by
    rw [Segment.call?, if_neg]
    intro hstart
    obtain ⟨more, hmore⟩ := List.head?_eq_some_iff.1 hc
    rw [hmore] at hstart
    cases more with
    | nil => simp [Window.startsConstruct] at hstart
    | cons d tail =>
      simp only [Window.startsConstruct, Bool.and_eq_true, beq_iff_eq] at hstart
      exact hs hstart.1
  rw [Segment.function?, Segment.calls?]
  split
  · rfl
  · rename_i he
    rw [hcall] at he
    cases he

theorem reference?_none {w : Window} {c : Char} (hc : w.chars.head? = some c) (hs : c ≠ '@') :
    Segment.reference? w = none := by
  obtain ⟨more, hmore⟩ := List.head?_eq_some_iff.1 hc
  rw [Segment.reference?, hmore]
  exact if_neg hs

/-- An equality sign between spaces. -/
theorem afterEquals?_eq {spaces gap more : List Char} (hs : ∀ c ∈ spaces, Segment.isSpace c = true)
    (hgap : ∀ c ∈ gap, Segment.isGap c = true) (hmore : ∀ c, more.head? = some c → Segment.isGap c = false)
    (offset : Nat) :
    ∃ stop, Segment.afterEquals? ⟨offset, spaces ++ '=' :: (gap ++ more)⟩ = some ⟨stop, more⟩ := by
  obtain ⟨-, hdrop⟩ := @Text.takeWhile_append_stop Segment.isSpace spaces ('=' :: (gap ++ more)) hs
    (fun c hc => by obtain rfl := Option.some.inj hc; rfl)
  obtain ⟨-, hdrop'⟩ := Text.takeWhile_append_stop hgap hmore
  have hchars : ((Window.mk offset (spaces ++ '=' :: (gap ++ more))).dropWhile Segment.isSpace).chars =
      '=' :: (gap ++ more) := hdrop
  refine ⟨(((Window.mk offset (spaces ++ '=' :: (gap ++ more))).dropWhile Segment.isSpace).tail.dropWhile
    Segment.isGap).offset, ?_⟩
  have htail : ((Window.mk offset (spaces ++ '=' :: (gap ++ more))).dropWhile Segment.isSpace).tail.chars =
      gap ++ more := by
    rw [Window.tail, hchars]
    rfl
  have htarget : (((Window.mk offset (spaces ++ '=' :: (gap ++ more))).dropWhile
      Segment.isSpace).tail.dropWhile Segment.isGap).chars = more := by
    rw [Window.dropWhile, htail]
    exact hdrop'
  rw [Segment.afterEquals?, hchars]
  have hwindow (w : Window) (h : w.chars = more) : w = ⟨w.offset, more⟩ := by rw [← h]
  exact congrArg some (hwindow _ htarget)

theorem afterEquals?_none {offset : Nat} {rest : List Char}
    (h : (rest.dropWhile Segment.isSpace).head? ≠ some '=') :
    Segment.afterEquals? ⟨offset, rest⟩ = none := by
  have hchars : ((Window.mk offset rest).dropWhile Segment.isSpace).chars =
      rest.dropWhile Segment.isSpace := rfl
  rw [Segment.afterEquals?, hchars]
  split
  · rfl
  · rename_i c more he
    rw [he] at h
    rw [if_neg]
    rintro rfl
    exact h rfl

/-- A sign with a name behind it. -/
theorem name_sign (offset : Nat) (sign : Char) {name : String} (hname : ∀ c ∈ name.toList, Window.isNameChar c = true)
    {more : List Char} (hmore : ∀ c, more.head? = some c → Window.isNameChar c = false) :
    (Window.mk offset (sign :: name.toList ++ more)).tail.name = name ∧
      ∃ stop, (Window.mk offset (sign :: name.toList ++ more)).tail.afterName = ⟨stop, more⟩ := by
  obtain ⟨htake, hdrop⟩ := Text.takeWhile_append_stop hname hmore
  have hchars : (Window.mk offset (sign :: name.toList ++ more)).tail.chars = name.toList ++ more := rfl
  refine ⟨by rw [Window.name, hchars, htake, String.ofList_toList], ?_⟩
  exact ⟨_, by rw [Window.afterName, Window.dropWhile, hchars, hdrop]; rfl⟩

section

variable {text : List Char} {n : Node}

theorem ReadsFunction.element (h : ReadsFunction g text n) (hs : Segment.Starts text) :
    ReadsElement g text n := by
  intro offset rest hrest
  obtain ⟨call, nested, stop, hcalls, hgives⟩ := h offset rest hrest.1
  refine ⟨.function call nested, stop, ?_, hgives⟩
  rw [read?_of_prose (hs.append rest).splitProse_eq, Segment.function?, hcalls]
  rfl

theorem ReadsCommand.element (h : ReadsCommand g text n) (hs : Segment.Starts text)
    (hsign : text.head? = some '$') : ReadsElement g text n := by
  intro offset rest hrest
  obtain ⟨call, stop, hcall, hgives⟩ := h offset rest hrest.1
  have hhead : (text ++ rest).head? = some '$' := by rw [List.head?_append, hsign]; rfl
  refine ⟨.command call, stop, ?_, hgives⟩
  rw [read?_of_prose (hs.append rest).splitProse_eq, function?_none hhead (by decide), Option.none_or,
    reference?_none hhead (by decide), Option.none_or, Segment.command?, hcall]
  rfl

/-- A reference to a function. -/
theorem ReadsFunction.reference (h : ReadsFunction g text n) (hsign : text.head? = some '#') {name : String}
    (hname : ∀ c ∈ name.toList, Window.isNameChar c = true) :
    ReadsElement g ('@' :: name.toList ++ ['='] ++ text) ⟨{ kind := .ref, content := name }, [n]⟩ := by
  intro offset rest hrest
  obtain ⟨more, rfl⟩ := List.head?_eq_some_iff.1 hsign
  have hshape : '@' :: name.toList ++ ['='] ++ '#' :: more ++ rest =
      '@' :: name.toList ++ '=' :: ('#' :: more ++ rest) := by simp
  have hstop : ∀ c, ('=' :: ('#' :: more ++ rest)).head? = some c → Window.isNameChar c = false := by
    intro c hc
    obtain rfl := Option.some.inj hc
    rfl
  obtain ⟨hwindow, start, hafter⟩ := name_sign offset '@' hname hstop
  obtain ⟨target, htarget⟩ := @afterEquals?_eq [] [] ('#' :: more ++ rest) (by simp) (by simp)
    (fun c hc => by obtain rfl := Option.some.inj hc; rfl) start
  obtain ⟨call, nested, stop, hcalls, hgives⟩ := h target rest hrest.1
  have hstarts : Segment.Starts ('@' :: name.toList ++ '=' :: ('#' :: more ++ rest)) :=
    ⟨'@', _, rfl, .inr (.inl rfl)⟩
  have href : Segment.reference? ⟨offset, '@' :: name.toList ++ '=' :: ('#' :: more ++ rest)⟩ =
      some (.reference name call nested, ⟨stop, rest⟩) := by
    rw [Segment.reference?]
    simp only [List.cons_append, if_true]
    simp only [List.nil_append] at htarget
    simp only [List.cons_append] at hafter hwindow htarget hcalls
    rw [hwindow, hafter, htarget]
    simp only [List.head?_cons, beq_self_eq_true, if_true]
    rw [hcalls]
  refine ⟨.reference name call nested, stop, ?_, fun fuel hf => ?_⟩
  · rw [hshape, read?_of_prose hstarts.splitProse_eq, function?_none rfl (by decide), Option.none_or, href]
    rfl
  · have hlength : ('#' :: more).length ≤ fuel := by
      simp only [List.length_append, List.length_cons] at hf ⊢
      omega
    obtain ⟨hcomplete, hwarnings, hnode⟩ := hgives fuel hlength
    obtain ⟨m, hm, rfl⟩ := Option.map_eq_some_iff.1 hnode
    refine ⟨hcomplete, hwarnings, ?_⟩
    simp only [readSegment, Finding.under, hm]
    rfl

/-- An assignment. -/
theorem ReadsCommand.assignment (h : ReadsCommand g text n) (hsign : text.head? = some '$') {name : String}
    (hname : IsName name) :
    ReadsElement g ('%' :: name.toList ++ [' ', '=', ' '] ++ text)
      ⟨{ kind := .varAssign, content := name }, [n]⟩ := by
  intro offset rest hrest
  obtain ⟨more, rfl⟩ := List.head?_eq_some_iff.1 hsign
  have hshape : '%' :: name.toList ++ [' ', '=', ' '] ++ '$' :: more ++ rest =
      '%' :: name.toList ++ ([' '] ++ '=' :: ([' '] ++ ('$' :: more ++ rest))) := by simp
  have hstop : ∀ c, ([' '] ++ '=' :: ([' '] ++ ('$' :: more ++ rest))).head? = some c →
      Window.isNameChar c = false := by
    intro c hc
    obtain rfl := Option.some.inj hc
    rfl
  obtain ⟨hwindow, start, hafter⟩ := name_sign offset '%' hname.all hstop
  obtain ⟨target, htarget⟩ := @afterEquals?_eq [' '] [' '] ('$' :: more ++ rest) (by simp [Segment.isSpace])
    (by simp [Segment.isGap]) (fun c hc => by obtain rfl := Option.some.inj hc; rfl) start
  obtain ⟨call, stop, hcall, hgives⟩ := h target rest hrest.1
  have hstarts := starts_sign (.inr rfl) hname ([' '] ++ '=' :: ([' '] ++ ('$' :: more ++ rest)))
  have hconstruct : Window.startsConstruct '%'
      ('%' :: name.toList ++ ([' '] ++ '=' :: ([' '] ++ ('$' :: more ++ rest)))) = true := by
    obtain ⟨c, tail, hc, hstart, -⟩ := hname
    rw [hc]
    simp [Window.startsConstruct, hstart]
  have hcommand : Segment.command? ⟨offset, '%' :: name.toList ++
      ([' '] ++ '=' :: ([' '] ++ ('$' :: more ++ rest)))⟩ = none := by
    rw [Segment.command?, Segment.call?, if_neg]
    · rfl
    · obtain ⟨c, tail, hc, -⟩ := hname
      rw [hc]
      simp [Window.startsConstruct]
  have hassign : Segment.assignmentOrUse? ⟨offset, '%' :: name.toList ++
      ([' '] ++ '=' :: ([' '] ++ ('$' :: more ++ rest)))⟩ = some (.assignment name call, ⟨stop, rest⟩) := by
    rw [Segment.assignmentOrUse?, if_pos hconstruct, hwindow, hafter, htarget]
    simp only [hcall]
  refine ⟨.assignment name call, stop, ?_, fun fuel hf => ?_⟩
  · rw [hshape, read?_of_prose hstarts.splitProse_eq, function?_none rfl (by decide), Option.none_or,
      reference?_none rfl (by decide), Option.none_or, hcommand, Option.none_or, hassign]
  · have hlength : ('$' :: more).length ≤ fuel := by
      simp only [List.length_append, List.length_cons] at hf ⊢
      omega
    obtain ⟨hcomplete, hwarnings, hnode⟩ := hgives fuel hlength
    obtain ⟨m, hm, rfl⟩ := Option.map_eq_some_iff.1 hnode
    refine ⟨hcomplete, hwarnings, ?_⟩
    simp only [readSegment, Finding.under, hm]
    rfl

/-- A use of a variable. -/
theorem readsElement_use (g : Grammar) {name : String} (hname : IsName name) :
    ReadsElement g ('%' :: name.toList) (useOf name) := by
  intro offset rest hrest
  have hstop : ∀ c, rest.head? = some c → Window.isNameChar c = false := by
    intro c hc
    rcases hrest.1 c hc with rfl | rfl <;> rfl
  obtain ⟨hwindow, start, hafter⟩ := name_sign offset '%' hname.all hstop
  have hstarts := starts_sign (.inr rfl) hname rest
  have hconstruct : Window.startsConstruct '%' ('%' :: name.toList ++ rest) = true := by
    obtain ⟨c, tail, hc, hstart, -⟩ := hname
    rw [hc]
    simp [Window.startsConstruct, hstart]
  have hcommand : Segment.command? ⟨offset, '%' :: name.toList ++ rest⟩ = none := by
    rw [Segment.command?, Segment.call?, if_neg]
    · rfl
    · obtain ⟨c, tail, hc, -⟩ := hname
      rw [hc]
      simp [Window.startsConstruct]
  refine ⟨.use name, start, ?_, fun fuel _ => ⟨rfl, rfl, rfl⟩⟩
  rw [read?_of_prose hstarts.splitProse_eq, function?_none rfl (by decide), Option.none_or,
    reference?_none rfl (by decide), Option.none_or, hcommand, Option.none_or, Segment.assignmentOrUse?,
    if_pos hconstruct, hwindow, hafter, afterEquals?_none (hrest.2 rfl)]

end

/-! ## Documents -/

/-- The text of a node is read as this node, where it may stand. -/
structure NodeReads (g : Grammar) (unit : List Char) (level : Nat) (n : Node) : Prop where
  function : n.kind = .func → ReadsFunction g (nodeText unit level n) n.reread
  command : n.kind = .cmd → ReadsCommand g (nodeText unit level n) n.reread
  element : n.kind ≠ .text → ReadsElement g (nodeText unit level n) n.reread

theorem head?_nodeText_cmd {n : Node} (h : n.kind = .cmd) : (nodeText unit level n).head? = some '$' := by
  obtain ⟨label, children⟩ := n
  have h : label.kind = .cmd := h
  rw [nodeText, h]
  rfl

theorem NodeReads.of_kind {n : Node} {kind : Kind} (hk : n.kind = kind) (hnot : kind ≠ .func ∧ kind ≠ .cmd)
    (h : n.kind ≠ .text → ReadsElement g (nodeText unit level n) n.reread) : NodeReads g unit level n :=
  ⟨fun hf => absurd (hk.symm.trans hf) hnot.1, fun hc => absurd (hk.symm.trans hc) hnot.2, h⟩

theorem isReadable_children {label : Label} {children : List Node}
    (hk : label.kind.isBody = false ∧ label.kind ≠ .funcParam)
    (h : isReadable unit level ⟨label, children⟩ = true) : areReadable unit level children = true := by
  unfold isReadable at h
  cases hkind : label.kind <;> rw [hkind] at h <;> first | exact h | skip
  · exact absurd hkind hk.2
  · exact absurd hk.1 (by rw [hkind]; decide)
  · exact absurd hk.1 (by rw [hkind]; decide)

theorem rereadAll_results {ns : List Node} (h : ∀ n ∈ ns, n.kind = .literal) : rereadAll ns = [] := by
  induction ns with
  | nil => rfl
  | cons n rest ih =>
    rw [List.forall_mem_cons] at h
    rw [rereadAll, if_pos (.inr h.1), ih h.2]

/-- What is read back of a node above a call. -/
theorem reread_above {label : Label} {m : Node} (hk : label.kind = .ref ∨ label.kind = .varAssign)
    (hp : IsPlain label) (hm : m.kind = .func ∨ m.kind = .cmd) :
    Node.reread ⟨label, [m]⟩ = ⟨{ kind := label.kind, content := label.content }, [m.reread]⟩ := by
  have hlabel : label.unplaced = { kind := label.kind, content := label.content } := by
    rw [← hp.1, ← hp.2]
    rfl
  have hmnot : ¬ (m.kind = .sep ∨ m.kind = .literal) := by
    rcases hm with hm | hm <;> simp [hm]
  have hchildren : rereadAll [m] = [m.reread] := by
    rw [rereadAll, if_neg hmnot, rereadAll]
  rcases hk with hk | hk <;>
  · rw [reread, hlabel, hchildren]
    simp only [hk]

mutual

theorem nodeReads (hu : ∀ c ∈ unit, Text.isBlank c = true) (hg : g.Keeps) (level : Nat) : ∀ {n : Node},
    IsElement g marked n → n.isReadable unit level = true → NodeReads g unit level n
  | ⟨label, children⟩, h, hr => by
    have hstarts := fun hk => @starts_nodeText g marked unit level ⟨label, children⟩ h hk
    have helement := h
    unfold IsElement at h
    cases hk : label.kind <;> rw [hk] at h <;> try exact h.2.elim
    case text => exact .of_kind hk (by decide) fun ht => absurd hk ht
    case func =>
      have hreadable := isReadable_children (by simp [hk, Kind.isBody]) hr
      obtain ⟨hbodies, hhosts⟩ := clausesRead hu hg level h.2.2 hreadable
      have hread := readsFunction hu hg hk helement hreadable hbodies hhosts
      refine ⟨fun _ => hread, fun hc => absurd (hk.symm.trans hc) (by decide), fun ht => ?_⟩
      exact hread.element (hstarts ht)
    case cmd =>
      have hreadable := isReadable_children (by simp [hk, Kind.isBody]) hr
      have hread := readsCommand hu hg hk helement hreadable (clausesRead hu hg level h.2.2 hreadable).1
      refine ⟨fun hf => absurd (hk.symm.trans hf) (by decide), fun _ => hread, fun ht => ?_⟩
      exact hread.element (hstarts ht) (head?_nodeText_cmd hk)
    case ref =>
      have hreadable := isReadable_children (by simp [hk, Kind.isBody]) hr
      have hcall := callReads hu hg level h.2.2 hreadable
      refine .of_kind hk (by decide) fun _ => ?_
      cases children with
      | nil => exact h.2.2.elim
      | cons m rest =>
        unfold IsCall at h
        obtain ⟨hp, hname, hm, rfl, -⟩ := h
        obtain ⟨more, hmore⟩ := nodeText_of_func unit level hm
        have hread := ((hcall m (.head _)).function hm).reference (by rw [hmore]; rfl) hname
        rw [reread_above (.inl hk) hp (.inl hm), nodeText, hk]
        exact hread
    case varUse =>
      refine .of_kind hk (by decide) fun _ => ?_
      obtain ⟨hp, hname, hchildren⟩ := h
      have hlabel : label.unplaced = { kind := .varUse, content := label.content } := by
        rw [← hk, ← hp.1, ← hp.2]
        rfl
      have hread := readsElement_use g hname
      rw [reread, nodeText, hk, rereadAll_results fun n hn => (hchildren n hn).2, hlabel]
      exact hread
    case varAssign =>
      have hreadable := isReadable_children (by simp [hk, Kind.isBody]) hr
      have hcall := callReads hu hg level h.2.2 hreadable
      refine .of_kind hk (by decide) fun _ => ?_
      cases children with
      | nil => exact h.2.2.elim
      | cons m rest =>
        unfold IsCall at h
        obtain ⟨hp, hname, hm, rfl, -⟩ := h
        have hread := ((hcall m (.head _)).command hm).assignment (head?_nodeText_cmd hm) hname
        rw [reread_above (.inr hk) hp (.inr hm), nodeText, hk]
        exact hread

theorem callReads (hu : ∀ c ∈ unit, Text.isBlank c = true) (hg : g.Keeps) (level : Nat) {kind : Kind} :
    ∀ {ns : List Node}, IsCall g marked kind ns → areReadable unit level ns = true →
      ∀ n ∈ ns, NodeReads g unit level n
  | n :: rest, h, hr => by
    unfold IsCall at h
    obtain ⟨-, rfl, h⟩ := h
    rw [areReadable, Bool.and_eq_true] at hr
    rw [List.forall_mem_singleton]
    exact nodeReads hu hg level h hr.1

theorem clausesRead (hu : ∀ c ∈ unit, Text.isBlank c = true) (hg : g.Keeps) (level : Nat) {rule : BodyRule}
    {bodyKind : Kind} {param : Option Json} {hosts : Bool} :
    ∀ {ns : List Node}, IsClauses g marked rule bodyKind param hosts ns → areReadable unit level ns = true →
      BodiesRead g marked unit level ns ∧ HostsRead g unit level ns
  | [], _, _ => ⟨by simp [BodiesRead], by simp [HostsRead]⟩
  | ⟨label, children⟩ :: rest, h, hr => by
    rw [areReadable, Bool.and_eq_true] at hr
    have hrest : BodiesRead g marked unit level rest ∧ HostsRead g unit level rest := by
      obtain ⟨-, -, -, value, -, hrest⟩ | ⟨-, -, -, hrest⟩ | ⟨-, -, -, -, rfl, -⟩ | ⟨-, -, -, -, hrest⟩ :=
        h.cases
      · exact clausesRead hu hg level hrest hr.2
      · exact clausesRead hu hg level hrest hr.2
      · exact ⟨by simp [BodiesRead], by simp [HostsRead]⟩
      · exact clausesRead hu hg level hrest hr.2
    have hinside : label.kind.isBody = true →
        areReadable unit (levelInside label.layout level) children = true :=
      fun hk => (closes_of_isReadable hk hr.1).2
    refine ⟨List.forall_mem_cons.2 ⟨fun hk hflow => ?_, hrest.1⟩,
      List.forall_mem_cons.2 ⟨fun hk hl m hm hf => ?_, hrest.2⟩⟩
    · exact flowReads hu hg _ hflow (hinside hk)
    · have hlevel : levelInside label.layout level = level := if_neg (by
        have hl : label.layout = some .directChild := hl
        rw [hl]
        decide)
      have hchildren := hinside hk
      rw [hlevel] at hchildren
      obtain ⟨hkind, -⟩ | ⟨hkind, -⟩ | ⟨-, -, -, -, -, -, hcall⟩ | ⟨-, -, hnot, -⟩ := h.cases
      · exact absurd hk (by rw [Node.kind, hkind]; decide)
      · exact absurd hk (by rw [Node.kind, hkind]; decide)
      · exact (callReads hu hg level hcall hchildren m hm).function hf
      · exact absurd hl hnot

theorem flowReads (hu : ∀ c ∈ unit, Text.isBlank c = true) (hg : g.Keeps) (level : Nat) :
    ∀ {ns : List Node} {prev : Option Kind}, IsFlow g marked true prev ns → areReadable unit level ns = true →
      ∀ n ∈ ns, n.kind ≠ .text → n.kind ≠ .sep → ReadsNode g unit level n
  | [], _, _, _ => by simp
  | n :: rest, prev, h, hr => by
    rw [areReadable, Bool.and_eq_true] at hr
    rw [List.forall_mem_cons]
    obtain ⟨hflow, ⟨-, hk, -⟩ | ⟨-, hk, helement⟩ | ⟨hb, -⟩⟩ := h.cases
    · exact ⟨fun _ hs => absurd hk hs, flowReads hu hg level hflow hr.2⟩
    · refine ⟨fun ht _ => ⟨starts_nodeText helement ht, ?_⟩, flowReads hu hg level hflow hr.2⟩
      exact (nodeReads hu hg level helement hr.1).element ht
    · exact absurd hb (by decide)

end

/-- The text of a document that can be read back is read to its end, as this document. -/
theorem parse_printWith {unit : String} (hu : ∀ c ∈ unit.toList, Text.isBlank c = true) (hg : g.Keeps)
    (initial : Table Json) {document : Node} (h : IsFlow g marked true none document.children)
    (hr : areReadable unit.toList 0 document.children = true) :
    (parse g initial (document.printWith unit)).complete = true ∧
      unplacedAll (parse g initial (document.printWith unit)).document.children =
        rereadAll document.children := by
  have hclose : IsClose none := fun _ h => absurd h (by simp)
  have hread := (readsAs_flow hu hclose (flowReads hu hg 0 h hr) h).1 .opened [] (by simp)
  obtain ⟨hrest, hfindings, hnodes⟩ := hread 0 _ (Nat.lt_succ_self _)
  have hwindow : contents g (.ofSource (document.printWith unit)) =
      readWindow g ((flowText unit.toList 0 none .opened document.children).length + 1)
        ⟨0, flowText unit.toList 0 none .opened document.children⟩ := by
    rw [contents, Window.ofSource, printWith_eq hu h, String.toList_ofList, Window.length]
  simp only [parse, hwindow]
  refine ⟨?_, ?_⟩
  · simp only [Contents.complete, Bool.and_eq_true, List.all_eq_true, List.isEmpty_iff]
    exact ⟨hrest, fun f hf => (hfindings f hf).1⟩
  · rw [← hnodes, List.filterMap_eq_flatMap_toList]
    refine congrArg unplacedAll (List.flatMap_congr fun f hf => ?_)
    rw [Finding.rootNodes, (hfindings f hf).2, List.map_nil, List.append_nil]

end Evomark.Markup
