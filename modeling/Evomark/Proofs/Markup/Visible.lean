import Evomark.Proofs.Document.Seen
import Evomark.Proofs.Markup.Parsed
import Evomark.Proofs.Markup.ReadWindow
import Evomark.Proofs.Markup.Taken
/-!
# Reading keeps what is visible

A document that is read completely and without a warning at its root has the visible characters of
its source, in their order (`Markup.seenAll_parse`), as long as each parameter is written as it was
read (`Label.IsFaithful`): a parameter is printed as its value, and `1.50` as `1.5`.

The rule of a body decides whether its text is kept or read. `ReadsVisibly` says of the reader of
boxes what is to be visible of what it gives; that the reader has it is shown by induction on its bound.
-/

namespace Evomark

open Text Node

/-- A parameter is written as it was read, white space apart. -/
def Label.IsFaithful (label : Label) : Prop :=
  label.kind = .funcParam → visible label.content.toList = visible (paramText label)

instance : DecidablePred Label.IsFaithful := fun label =>
  inferInstanceAs (Decidable (label.kind = .funcParam → _))

/-- Every parameter among the nodes is written as it was read. -/
def Node.AreFaithful (depth : Nat) (ns : List Node) : Prop :=
  ∀ entry ∈ preorderAll depth ns, entry.2.IsFaithful

namespace Node.AreFaithful

variable {depth : Nat} {n : Node} {ns ms : List Node}

theorem head (h : AreFaithful depth (n :: ns)) : n.label.IsFaithful := by
  obtain ⟨label, children⟩ := n
  exact h (depth, label) (by simp [preorderAll, preorderFrom])

theorem inside (h : AreFaithful depth (n :: ns)) : AreFaithful (depth + 1) n.children := by
  obtain ⟨label, children⟩ := n
  exact fun entry he => h entry (by simp [preorderAll, preorderFrom, he])

theorem tail (h : AreFaithful depth (n :: ns)) : AreFaithful depth ns :=
  fun entry he => h entry (by simp [preorderAll, he])

theorem left (h : AreFaithful depth (ns ++ ms)) : AreFaithful depth ns :=
  fun entry he => h entry (by simp [preorderAll_append, he])

theorem right (h : AreFaithful depth (ns ++ ms)) : AreFaithful depth ms :=
  fun entry he => h entry (by simp [preorderAll_append, he])

end Node.AreFaithful

/-- The rules of the bodies whose text is kept or read. -/
def BodyRule.Shows (rule : BodyRule) : Prop :=
  rule = .box ∨ rule = .code ∨ (∃ space, rule = .config space) ∨ rule = .literal

namespace Grammar.Keeps

variable {g : Grammar} (hg : g.Keeps)

include hg

theorem shows_function (name : String) : (g.functionRule name).Shows := by
  obtain h | h | h := hg.functions name
  · exact .inl h
  · exact .inr (.inl h)
  · exact .inr (.inr (.inl h))

theorem shows_command (name : String) : (g.commandRule name).Shows :=
  .inr (.inr (.inr (hg.commands name)))

end Grammar.Keeps

namespace Markup

/-! ## Literal bodies -/

theorem seenAll_literalOf (run : List Char) : seenAll (literalOf run) = visible run.reverse := by
  unfold literalOf
  simp only
  split
  · rename_i h
    rw [← visible_normalizeLines, List.isEmpty_iff.1 h]
    rfl
  · rw [seenAll_singleton, leaf, seen]
    simp only [String.toList_ofList, visible_normalizeLines]

theorem visible_gap (rest : List Char) :
    visible (rest.dropWhile isGapChar) = visible ('\n' :: rest) :=
  visible_dropWhile (fun _ => isWhite_of_isGapChar) rest

/-- A literal body loses nothing but white space. -/
theorem seenAll_literalNodesFrom (run cs : List Char) :
    seenAll (literalNodesFrom run cs) = visible (run.reverse ++ cs) := by
  fun_induction literalNodesFrom run cs with
  | case1 run => rw [seenAll_literalOf, List.append_nil]
  | case2 run c rest hs ih =>
    have hc : c = '%' := by
      cases rest with
      | nil => exact absurd hs (by simp [Window.startsConstruct])
      | cons d more => exact (by simpa [Window.startsConstruct] using hs : c = '%' ∧ _).1
    have huse : (useOf (String.ofList (rest.takeWhile Window.isNameChar))).seen =
        '%' :: visible (rest.takeWhile Window.isNameChar) := by
      rw [useOf, leaf, seen]
      simp only [String.toList_ofList]
    rw [seenAll_append, seenAll_literalOf, seenAll, huse, ih, List.reverse_nil, List.nil_append, hc,
      visible_append, visible_cons rfl, List.cons_append, ← visible_append,
      List.takeWhile_append_dropWhile]
  | case3 run rest hs gap hg =>
    rename_i ih
    rw [seenAll_append, seenAll_literalOf, seenAll, ih, List.reverse_nil, List.nil_append,
      visible_gap, visible_append]
    rfl
  | case4 run rest hs gap hg =>
    rename_i ih
    rw [ih, List.reverse_append, List.reverse_reverse, List.append_assoc]
    show visible (run.reverse ++ ('\n' :: rest.takeWhile isGapChar ++ rest.dropWhile isGapChar)) = _
    rw [List.cons_append, List.takeWhile_append_dropWhile]
  | case5 run c rest hs hc ih => rw [ih, List.reverse_cons, List.append_assoc, List.singleton_append]

/-! ## Bodies and clauses -/

section

variable {g : Grammar} {read : Window → Contents}

/-- What is visible of a window is visible of what is read of it, if that is complete and without a
warning. -/
def ReadsVisibly (read : Window → Contents) : Prop :=
  ∀ w depth, (read w).inside.complete = true → (read w).inside.warnings = [] →
    AreFaithful depth (read w).inside.children → seenAll (read w).inside.children = visible w.chars

/-- The visible characters of what a body gives: of the text it keeps, or else of its children. -/
def Inside.seen (i : Inside) : List Char :=
  if i.content.toList.isEmpty then seenAll i.children else visible i.content.toList

/-- The children of a body that keeps its text show nothing. -/
theorem Inside.seen_of_kept {i : Inside} {cs : List Char} (hcontent : i.content.toList = cs)
    (hchildren : seenAll i.children = []) : i.seen = visible cs := by
  rw [Inside.seen, hcontent]
  split
  · rename_i h
    rw [hchildren, List.isEmpty_iff.1 h]
    rfl
  · rfl

theorem readSettings_kept (space : String) (param : Option Json) (raw : String) :
    (readSettings space param raw).content = raw ∧
      seenAll (readSettings space param raw).children = [] := by
  unfold readSettings
  split
  · exact ⟨rfl, by rw [seenAll_singleton, leaf, seen]⟩
  · exact ⟨rfl, by rw [seenAll_singleton, warningNode, leaf, seen]⟩

/-- A body shows the visible characters of its inside. -/
theorem seen_readBody (hread : ReadsVisibly read) {rule : BodyRule} (hr : rule.Shows)
    {param : Option Json} {w : Window} {depth : Nat}
    (hc : (readBody read rule param w).complete = true) (hw : (readBody read rule param w).warnings = [])
    (hf : AreFaithful depth (readBody read rule param w).children) :
    (readBody read rule param w).seen = visible w.chars := by
  rcases hr with rfl | rfl | ⟨space, rfl⟩ | rfl
  · exact hread w depth hc hw hf
  · exact Inside.seen_of_kept String.toList_ofList rfl
  · obtain ⟨hcontent, hchildren⟩ := readSettings_kept space param (String.ofList w.chars)
    refine Inside.seen_of_kept ?_ hchildren
    exact (congrArg String.toList hcontent).trans String.toList_ofList
  · show seenAll (literalNodes w.chars) = _
    rw [literalNodes, seenAll_literalNodesFrom, List.reverse_nil, List.nil_append]

theorem seen_of_isBody {label : Label} {children : List Node}
    (h : label.kind.isBody = true) :
    seen ⟨label, children⟩ = seenBody label (seenAll children)
      (seenCalls (fun kind => kind == .func || kind == .cmd) children) := by
  unfold seen
  cases hk : label.kind <;> rw [hk] at h <;> first | rfl | exact absurd h (by decide)

theorem seenClauses_readClauses (hread : ReadsVisibly read) {rule : BodyRule} (hr : rule.Shows)
    {bodyKind : Kind} (hb : bodyKind.isBody = true) {param : Option Json}
    {clauses : List Clause} {depth : Nat} (hformed : ∀ c ∈ clauses, c.Formed)
    (hc : (readClauses read rule bodyKind param clauses).complete = true)
    (hw : (readClauses read rule bodyKind param clauses).warnings = [])
    (hf : AreFaithful depth (readClauses read rule bodyKind param clauses).nodes) :
    seenClauses (readClauses read rule bodyKind param clauses).nodes = clauses.flatMap Clause.seen := by
  induction clauses generalizing param with
  | nil => rfl
  | cons clause more ih =>
    rw [List.forall_mem_cons] at hformed
    cases clause with
    | param raw value span =>
      have hparam : visible raw.toList = visible value.write := hf.head rfl
      have hmore := ih hformed.2 hc hw hf.tail
      simp only [readClauses]
      rw [seenClauses, hmore, List.flatMap_cons, leaf]
      congr 1
      rw [if_pos (by rfl), seen, Clause.seen, hparam]
      rfl
    | body layout inner =>
      simp only [readClauses, Bool.and_eq_true, List.append_eq_nil_iff] at hc hw
      have hlayout : layout ≠ .directChild := by
        rintro rfl
        exact hformed.1
      have hbody := seen_readBody hread hr hc.1 hw.1 hf.inside
      have hmore := ih hformed.2 hc.2 hw.2 hf.tail
      simp only [readClauses]
      rw [seenClauses, hmore, List.flatMap_cons]
      congr 1
      rw [Clause.seen, ← hbody]
      refine (if_pos (isClause_of_isBody hb)).trans (Eq.trans (seen_of_isBody hb) ?_)
      cases layout with
      | directChild => exact absurd rfl hlayout
      | inline | block | code opening closing => rfl

/-! ## Segments -/

theorem seen_readCommand (hg : g.Keeps) (hread : ReadsVisibly read) {call : Call} {depth : Nat}
    (hformed : call.Formed) (hc : (readCommand g read call).complete = true)
    (hw : (readCommand g read call).warnings = [])
    (hf : AreFaithful depth (readCommand g read call).node.toList) :
    seenAll (readCommand g read call).node.toList = '$' :: call.seen := by
  have hclauses := seenClauses_readClauses hread (hg.shows_command call.name) rfl hformed.2
    hc hw hf.inside
  simp only [readCommand, Option.toList_some, seenAll_singleton]
  rw [seen, hclauses]
  rfl

theorem kind_readFunction (g : Grammar) (read : Window → Contents) (call : Call) (nested : List Call) :
    ∃ n, (readFunction g read call nested).node = some n ∧ n.kind = .func := by
  cases nested <;> exact ⟨_, rfl, rfl⟩

theorem seen_readFunction (hg : g.Keeps) (hread : ReadsVisibly read) {call : Call}
    {nested : List Call} {depth : Nat} (hformed : call.ChainFormed nested)
    (hc : (readFunction g read call nested).complete = true)
    (hw : (readFunction g read call nested).warnings = [])
    (hf : AreFaithful depth (readFunction g read call nested).node.toList) :
    seenAll (readFunction g read call nested).node.toList = call.seenChain nested := by
  have hr := hg.shows_function
  induction nested generalizing call depth with
  | nil =>
    have hclauses := seenClauses_readClauses hread (hr call.name) rfl hformed.2 hc hw hf.inside
    simp only [readFunction, Option.toList_some, seenAll_singleton]
    rw [seen, hclauses]
    rfl
  | cons next more ih =>
    obtain ⟨hcall, -, hnext⟩ := hformed
    simp only [readFunction, Bool.and_eq_true, List.append_eq_nil_iff] at hc hw
    have hclauses := seenClauses_readClauses hread (hr call.name) rfl hcall.2 hc.1 hw.1 hf.inside.left
    have hhosted := ih hnext hc.2 hw.2 hf.inside.right.inside
    obtain ⟨n, hn, hk⟩ := kind_readFunction g read next more
    have hdirect : seenClauses [directBody (readFunction g read next more).node] =
        next.seenChain more := by
      rw [hn, Option.toList_some, seenAll_singleton] at hhosted
      rw [hn, seenClauses, seenClauses, List.append_nil, ← hhosted]
      refine (if_pos rfl).trans (Eq.trans (seen_of_isBody rfl) ?_)
      exact seenCalls_singleton (.inl hk) (by rw [hk]; rfl)
    simp only [readFunction, Option.toList_some, seenAll_singleton]
    rw [seen, seenClauses_append, hclauses, hdirect, Call.seenChain, Call.seen]
    simp

/-- Nothing visible of a segment is lost. -/
theorem seen_readSegment (hg : g.Keeps) (hread : ReadsVisibly read) {segment : Segment} {depth : Nat}
    (hformed : segment.Formed) (hc : (readSegment g read segment).complete = true)
    (hw : (readSegment g read segment).warnings = [])
    (hf : AreFaithful depth (readSegment g read segment).node.toList) :
    segment.dangles = false ∧ seenAll (readSegment g read segment).node.toList = segment.seen := by
  cases segment with
  | prose raw =>
    refine ⟨rfl, ?_⟩
    simp only [readSegment]
    split
    · rename_i h
      rw [Segment.seen, ← visible_normalizeLines, List.isEmpty_iff.1 h]
      rfl
    · rw [Option.toList_some, seenAll_singleton, leaf, seen]
      simp only [String.toList_ofList, visible_normalizeLines, Segment.seen]
  | function call nested => exact ⟨rfl, seen_readFunction hg hread hformed hc hw hf⟩
  | reference name call nested =>
    obtain ⟨n, hn, hk⟩ := kind_readFunction g read call nested
    have hcall := seen_readFunction hg hread hformed.2 hc hw hf.inside
    rw [hn, Option.toList_some, seenAll_singleton] at hcall
    refine ⟨rfl, ?_⟩
    simp only [readSegment, Finding.under, Option.toList_some, seenAll_singleton, hn]
    rw [seen, seenCalls_singleton (.inl hk) (by rw [hk]; rfl), hcall, Segment.seen]
  | danglingReference name | emptyReference name | danglingAssignment name =>
    exact absurd hw (by simp [readSegment])
  | command call => exact ⟨rfl, seen_readCommand hg hread hformed hc hw hf⟩
  | use name =>
    refine ⟨rfl, ?_⟩
    simp only [readSegment, Option.toList_some, seenAll_singleton]
    rw [useOf, leaf, seen, Segment.seen]
  | assignment name call =>
    have hcall := seen_readCommand hg hread hformed.2 hc hw hf.inside
    refine ⟨rfl, ?_⟩
    simp only [readSegment, Finding.under, Option.toList_some, seenAll_singleton]
    rw [seen, hcall, Segment.seen]

end

/-! ## Windows -/

theorem readsVisibly_readWindow {g : Grammar} (hg : g.Keeps) (fuel : Nat) :
    ReadsVisibly (readWindow g fuel) := by
  induction fuel with
  | zero =>
    intro w depth hc _ _
    have hw : w.chars = [] := by simpa [readWindow, Contents.inside, Contents.complete] using hc
    rw [hw]
    rfl
  | succ fuel ih =>
    intro w depth hc hw hf
    simp only [readWindow, Contents.inside, Contents.complete, Bool.and_eq_true, List.all_eq_true,
      List.forall_mem_map, List.isEmpty_iff] at hc
    simp only [readWindow, Contents.inside, List.flatMap_eq_nil_iff, List.forall_mem_map] at hw
    simp only [readWindow, Contents.inside, List.filterMap_map] at hf ⊢
    -- segment by segment, the nodes of those before it and of it
    have hall : ∀ segments : List Segment, (∀ s ∈ segments, s ∈ w.segments.1) →
        AreFaithful depth (segments.filterMap fun s => (readSegment g (readWindow g fuel) s).node) →
        (∀ s ∈ segments, s.dangles = false) ∧
          seenAll (segments.filterMap fun s => (readSegment g (readWindow g fuel) s).node) =
            segments.flatMap Segment.seen := by
      intro segments hmem hf
      induction segments with
      | nil => exact ⟨by simp, rfl⟩
      | cons s more ihs =>
        rw [List.forall_mem_cons] at hmem
        have hsplit : (s :: more).filterMap (fun s => (readSegment g (readWindow g fuel) s).node) =
            (readSegment g (readWindow g fuel) s).node.toList ++
              more.filterMap fun s => (readSegment g (readWindow g fuel) s).node := by
          cases hnode : (readSegment g (readWindow g fuel) s).node <;> simp [hnode]
        rw [hsplit] at hf ⊢
        obtain ⟨hd, hs⟩ := seen_readSegment hg ih (Window.formed_of_mem_segments hmem.1)
          (hc.2 s hmem.1) (hw s hmem.1) hf.left
        obtain ⟨hds, hseen⟩ := ihs hmem.2 hf.right
        rw [List.forall_mem_cons, seenAll_append, hs, hseen, List.flatMap_cons]
        exact ⟨⟨hd, hds⟩, rfl⟩
    obtain ⟨hd, hseen⟩ := hall w.segments.1 (fun _ h => h) hf
    have hsegments := Window.visible_segments hd
    rw [hc.1, visible_nil, List.append_nil] at hsegments
    rw [hsegments]
    exact hseen

/-- What a document shows that is read completely and without a warning at its root. -/
theorem seenAll_parse {g : Grammar} (hg : g.Keeps) (initial : Table Json) (source : String)
    (hc : (parse g initial source).complete = true)
    (hw : ∀ n ∈ (parse g initial source).document.children, n.kind ≠ .warning)
    (hf : ∀ entry ∈ (parse g initial source).document.preorder, entry.2.IsFaithful) :
    seenAll (parse g initial source).document.children = visible source.toList := by
  have hwarnings : ∀ f ∈ (contents g (.ofSource source)).findings, f.warnings = [] := by
    intro f hmem
    refine List.eq_nil_iff_forall_not_mem.2 fun message hm => ?_
    have : warningNode message ∈ (parse g initial source).document.children :=
      List.mem_flatMap.2 ⟨f, hmem, List.mem_append_right _ (List.mem_map_of_mem hm)⟩
    exact hw _ this rfl
  have hroot : (parse g initial source).document.children =
      (contents g (.ofSource source)).inside.children := by
    show (contents g (.ofSource source)).findings.flatMap (·.rootNodes) =
      (contents g (.ofSource source)).findings.filterMap (·.node)
    rw [List.filterMap_eq_flatMap_toList]
    refine List.flatMap_congr fun f hmem => ?_
    rw [Finding.rootNodes, hwarnings f hmem, List.map_nil, List.append_nil]
  have hfaithful : AreFaithful 1 (parse g initial source).document.children := by
    intro entry he
    exact hf entry (.tail _ he)
  rw [hroot] at hfaithful ⊢
  exact readsVisibly_readWindow hg _ (.ofSource source) 1 hc (List.flatMap_eq_nil_iff.2 hwarnings)
    hfaithful

end Markup

end Evomark
