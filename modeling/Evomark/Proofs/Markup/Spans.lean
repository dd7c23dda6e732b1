import Evomark.Registry
import Evomark.Proofs.Document.Everywhere
import Evomark.Proofs.Markup.Delimited
import Evomark.Proofs.Markup.Separators
/-!
# Spans of a document

The nodes that are read from clauses say where the insides of the clauses stand (`Label.Placed`). The spans of a
document are nested as its nodes are, and those of nodes side by side stand one behind the other: `Tiled` nodes
and all below them lie in a stretch of the source, each in a part of its own. A window gives tiled nodes because
its clauses stand in order, and because what is inside of a body stays between its delimiters (`tiled_readWindow`).
-/

namespace Evomark

open Markup

/-! ## Nodes of clauses -/

/-- The span of the label is that of the inside of a clause between these delimiters. -/
def Label.Enclosed (label : Label) (s : String) (d : Delimiters) : Prop :=
  ∃ span inside, label.span = some span ∧ d.Enclose s span inside ∧ 0 < span.start ∧ span.start ≤ span.stop ∧
    byteAt s (span.start - 1) = pure d.opener ∧ byteAt s span.stop = pure d.closer

/-- A parameter has the span of what stands between its parentheses, and a body that of what stands between its
braces or fences, as its layout has it. Nothing else has a span, and no body that takes a function in its place. -/
def Label.Placed (label : Label) (s : String) : Prop :=
  match label.kind with
  | .funcParam => label.Enclosed s .parens
  | .body => ∃ d, label.layout.bind Layout.delimiters? = some d ∧ label.Enclosed s d
  | .funcBody => (∃ d, label.layout.bind Layout.delimiters? = some d ∧ label.Enclosed s d) ∨
    label.layout = some .directChild ∧ label.span = none
  | _ => label.span = none

theorem Delimiters.Enclose.enclosed {d : Delimiters} {s : String} {span : Span} {inside : List Char}
    {label : Label} (h : d.Enclose s span inside) (hspan : label.span = some span) : label.Enclosed s d :=
  ⟨span, inside, hspan, h, h.byteAt_opener.1, h.start_le, h.byteAt_opener.2, h.byteAt_closer⟩

theorem Delimiters.Enclose.liesIn {d : Delimiters} {s : String} {w : Window}
    (h : d.Enclose s ⟨w.offset, w.stop⟩ w.chars) : w.LiesIn s := by
  obtain ⟨before, after, hs, hstart⟩ := h.cut
  exact ⟨before ++ d.opening, d.closing ++ after, by rw [hs]; simp, hstart⟩

/-! ## Tilings -/

/-- The nodes, and all nodes below them, lie in the source between two offsets, one behind the other. What is
below a node with a span lies inside of that. -/
inductive Tiled (s : String) : Nat → List Node → Nat → Prop
  | nil {lo hi : Nat} : lo ≤ hi → Tiled s lo [] hi
  | spanned {lo hi : Nat} {span : Span} {label : Label} {children rest : List Node} :
    label.Placed s → label.span = some span → lo < span.start → Tiled s span.start children span.stop →
    Tiled s (span.stop + 1) rest hi → Tiled s lo (⟨label, children⟩ :: rest) hi
  | bare {lo mid hi : Nat} {label : Label} {children rest : List Node} :
    label.Placed s → label.span = none → Tiled s lo children mid → Tiled s mid rest hi →
    Tiled s lo (⟨label, children⟩ :: rest) hi

namespace Tiled

variable {s : String} {lo lo' mid hi hi' : Nat} {ns ms : List Node}

theorem le (h : Tiled s lo ns hi) : lo ≤ hi := by
  induction h with
  | nil hle => exact hle
  | spanned _ _ hlt _ _ hchildren hrest => omega
  | bare _ _ _ _ hchildren hrest => exact Nat.le_trans hchildren hrest

theorem from_le (h : Tiled s lo ns hi) (hle : lo' ≤ lo) : Tiled s lo' ns hi := by
  induction h generalizing lo' with
  | nil hlo => exact .nil (Nat.le_trans hle hlo)
  | spanned hp hspan hlt hchildren hrest => exact .spanned hp hspan (Nat.lt_of_le_of_lt hle hlt) hchildren hrest
  | bare hp hspan _ hrest ih => exact .bare hp hspan (ih hle) hrest

theorem append (h : Tiled s lo ns mid) (h' : Tiled s mid ms hi) : Tiled s lo (ns ++ ms) hi := by
  induction h with
  | nil hle => exact h'.from_le hle
  | spanned hp hspan hlt hchildren _ _ ih => exact .spanned hp hspan hlt hchildren (ih h')
  | bare hp hspan hchildren _ _ ih => exact .bare hp hspan hchildren (ih h')

theorem up_to (h : Tiled s lo ns hi) (hle : hi ≤ hi') : Tiled s lo ns hi' := by
  have := h.append (.nil hle)
  rwa [List.append_nil] at this

theorem single {label : Label} (hp : label.Placed s) (hspan : label.span = none) (h : Tiled s lo ns hi) :
    Tiled s lo [⟨label, ns⟩] hi := .bare hp hspan h (.nil (Nat.le_refl _))

theorem leaf {label : Label} (hp : label.Placed s) (hspan : label.span = none) (hle : lo ≤ hi) :
    Tiled s lo [.leaf label] hi := .single hp hspan (.nil hle)

theorem leaves (h : ∀ n ∈ ns, n.children = [] ∧ n.label.Placed s ∧ n.label.span = none) (hle : lo ≤ hi) :
    Tiled s lo ns hi := by
  induction ns with
  | nil => exact .nil hle
  | cons n rest ih =>
    obtain ⟨⟨hleaf, hp, hspan⟩, hrest⟩ := List.forall_mem_cons.1 h
    obtain ⟨label, children⟩ := n
    obtain rfl : children = [] := hleaf
    exact .bare hp hspan (.nil (Nat.le_refl _)) (ih hrest)

theorem placed (h : Tiled s lo ns hi) : Everywhere (fun n => n.label.Placed s) ns := by
  induction h with
  | nil => exact .nil
  | spanned hp _ _ _ _ hchildren hrest => exact (Everywhere.node hp hchildren).append hrest
  | bare hp _ _ _ hchildren hrest => exact (Everywhere.node hp hchildren).append hrest

/-! ### Places -/

section

variable {i j : Nat} {place left right : List Nat} {m n t : Node} {a b : Span}

/-- The first node lies in a stretch in front of that of the others. -/
theorem split (h : Tiled s lo (n :: ns) hi) : ∃ mid, Tiled s lo [n] mid ∧ Tiled s mid ns hi := by
  cases h with
  | spanned hp hspan hlt hchildren hrest =>
    exact ⟨_, .spanned hp hspan hlt hchildren (.nil (Nat.le_refl _)), hrest⟩
  | bare hp hspan hchildren hrest => exact ⟨_, .single hp hspan hchildren, hrest⟩

/-- A span lies in the stretch, and what is below the node inside of the span. -/
theorem of_span (h : Tiled s lo [n] hi) (ha : n.label.span = some a) :
    lo < a.start ∧ Tiled s a.start n.children a.stop ∧ a.stop < hi := by
  cases h with
  | spanned _ hspan hlt hchildren hrest =>
    obtain rfl := Option.some.inj (hspan.symm.trans ha)
    exact ⟨hlt, hchildren, hrest.le⟩
  | bare _ hspan => cases hspan.symm.trans ha

/-- What is below a node lies where the node does. -/
theorem children (h : Tiled s lo [n] hi) : Tiled s lo n.children hi := by
  cases h with
  | spanned _ _ hlt hchildren hrest => exact (hchildren.from_le (Nat.le_of_lt hlt)).up_to (Nat.le_of_lt hrest.le)
  | bare _ _ hchildren hrest => exact hchildren.up_to hrest.le

theorem of_getElem? (h : Tiled s lo ns hi) (hn : ns[i]? = some n) : Tiled s lo [n] hi := by
  induction ns generalizing lo i with
  | nil => cases hn
  | cons m rest ih =>
    obtain ⟨mid, hm, hrest⟩ := h.split
    cases i with
    | zero =>
      obtain rfl := Option.some.inj hn
      exact hm.up_to hrest.le
    | succ i => exact (ih hrest hn).from_le hm.le

/-- Of two nodes side by side the first lies in front of the other. -/
theorem of_getElem?_lt (h : Tiled s lo ns hi) (hlt : i < j) (hm : ns[i]? = some m) (hn : ns[j]? = some n) :
    ∃ mid, Tiled s lo [m] mid ∧ Tiled s mid [n] hi := by
  induction ns generalizing lo i j with
  | nil => cases hm
  | cons k rest ih =>
    obtain ⟨mid, hk, hrest⟩ := h.split
    obtain ⟨j, rfl⟩ := Nat.exists_eq_succ_of_ne_zero (Nat.ne_of_gt (Nat.zero_lt_of_lt hlt))
    cases i with
    | zero =>
      obtain rfl := Option.some.inj hm
      exact ⟨mid, hk, hrest.of_getElem? hn⟩
    | succ i =>
      obtain ⟨mid', hm', hn'⟩ := ih hrest (Nat.lt_of_succ_lt_succ hlt) hm hn
      exact ⟨mid', hm'.from_le hk.le, hn'⟩

theorem at? (h : Tiled s lo [t] hi) (hn : t.at? place = some n) : Tiled s lo [n] hi := by
  induction place generalizing t with
  | nil =>
    obtain rfl := Option.some.inj hn
    exact h
  | cons i place ih =>
    obtain ⟨child, hchild, hn⟩ := Option.bind_eq_some_iff.1 hn
    exact ih (h.children.of_getElem? hchild) hn

/-- The span of a node below another lies inside of the span of that. -/
theorem inside (h : Tiled s lo [m] hi) (hn : m.at? (i :: place) = some n) (ha : m.label.span = some a)
    (hb : n.label.span = some b) : a.start < b.start ∧ b.stop < a.stop := by
  obtain ⟨child, hchild, hn⟩ := Option.bind_eq_some_iff.1 hn
  obtain ⟨hstart, -, hstop⟩ := (((h.of_span ha).2.1.of_getElem? hchild).at? hn).of_span hb
  exact ⟨hstart, hstop⟩

/-- Of two nodes with spans neither of which is above the other, the first ends before the other begins. -/
theorem apart (h : Tiled s lo [t] hi) (hlt : left < right) (hnot : ¬ left <+: right) (hm : t.at? left = some m)
    (hn : t.at? right = some n) (ha : m.label.span = some a) (hb : n.label.span = some b) : a.stop < b.start := by
  induction left generalizing t right with
  | nil => exact absurd List.nil_prefix hnot
  | cons i left ih =>
    cases right with
    | nil => exact absurd hlt (List.not_lt_nil _)
    | cons j right =>
      obtain ⟨x, hx, hm⟩ := Option.bind_eq_some_iff.1 hm
      obtain ⟨y, hy, hn⟩ := Option.bind_eq_some_iff.1 hn
      rcases List.cons_lt_cons_iff.1 hlt with hij | ⟨rfl, hbelow⟩
      · obtain ⟨mid, hleft, hright⟩ := h.children.of_getElem?_lt hij hx hy
        have hstop := ((hleft.at? hm).of_span ha).2.2
        have hstart := ((hright.at? hn).of_span hb).1
        exact Nat.lt_trans hstop hstart
      · obtain rfl := Option.some.inj (hx.symm.trans hy)
        refine ih (h.children.of_getElem? hx) hbelow (fun hprefix => hnot ?_) hm hn
        exact List.cons_prefix_cons.2 ⟨rfl, hprefix⟩

end

end Tiled

/-! ## Reading -/

namespace Markup

variable {s : String} {g : Grammar} {lo hi : Nat}

/-- Clauses in order give tiled nodes if each segment does. -/
theorem tiled_flatMap {f : Segment → List Node} (segments : List Segment)
    (hf : ∀ segment {lo hi : Nat}, Clause.InOrder s lo segment.clauses hi → Tiled s lo (f segment) hi)
    (h : Clause.InOrder s lo (segments.flatMap Segment.clauses) hi) : Tiled s lo (segments.flatMap f) hi := by
  induction segments generalizing lo with
  | nil => exact .nil h
  | cons segment rest ih =>
    rw [List.flatMap_cons] at h
    obtain ⟨mid, hfirst, hrest⟩ := h.split
    exact (hf segment hfirst).append (ih hrest)

section

variable {read : Window → Contents}
  (hread : ∀ w, w.LiesIn s → Tiled s w.offset ((read w).findings.filterMap (·.node)) w.stop)

include hread

theorem tiled_readBody (rule : BodyRule) (param : Option Json) {w : Window} (hw : w.LiesIn s) :
    Tiled s w.offset (readBody read rule param w).children w.stop := by
  have hle : w.offset ≤ w.stop := Window.LiesIn.offset_le_stop w
  cases rule with
  | box => exact hread w hw
  | code | reject => exact .nil hle
  | literal =>
    refine .leaves (fun n hn => ?_) hle
    cases isItem_of_mem_literalNodesFrom hn with
    | literal | use | sep => exact ⟨rfl, rfl, rfl⟩
  | config space =>
    simp only [readBody, readSettings]
    split <;> exact .leaf rfl rfl hle
  | shout => exact .leaf rfl rfl hle

theorem tiled_readClauses (rule : BodyRule) {kind : Kind} (hk : kind.isBody = true) (param : Option Json)
    {clauses : List Clause} (h : Clause.InOrder s lo clauses hi) :
    Tiled s lo (readClauses read rule kind param clauses).nodes hi := by
  induction clauses generalizing lo param with
  | nil => exact .nil h
  | cons clause more ih =>
    obtain ⟨hstands, hlt, hmore⟩ := h
    cases clause with
    | param raw value span =>
      obtain ⟨inside, hinside⟩ := hstands
      exact .spanned (hinside.enclosed rfl) rfl hlt (.nil hinside.start_le) (ih _ hmore)
    | body layout inner =>
      obtain ⟨d, hd, hinside⟩ := hstands
      refine .spanned ?_ rfl hlt (tiled_readBody hread rule param hinside.liesIn) (ih _ hmore)
      have henclosed (content : String) : Label.Enclosed
          { kind, content, layout := some layout, span := some ⟨inner.offset, inner.stop⟩ } s d :=
        hinside.enclosed rfl
      cases kind with
      | body => exact ⟨d, hd, henclosed _⟩
      | funcBody => exact .inl ⟨d, hd, henclosed _⟩
      | _ => cases hk

theorem tiled_readCommand (call : Call) (h : Clause.InOrder s lo call.clauses hi) :
    Tiled s lo (readCommand g read call).node.toList hi :=
  .single rfl rfl (tiled_readClauses hread _ rfl none h)

theorem tiled_readFunction (call : Call) (nested : List Call)
    (h : Clause.InOrder s lo ((call :: nested).flatMap (·.clauses)) hi) :
    Tiled s lo (readFunction g read call nested).node.toList hi := by
  rw [List.flatMap_cons] at h
  obtain ⟨mid, hcall, hnested⟩ := h.split
  have hparts := tiled_readClauses hread (g.functionRule call.name) (rfl : Kind.funcBody.isBody = true) none hcall
  induction nested generalizing call lo mid with
  | nil => exact .single rfl rfl (hparts.up_to hnested)
  | cons next more ih =>
    rw [List.flatMap_cons] at hnested
    obtain ⟨mid', hnext, hmore⟩ := hnested.split
    have hhosted := ih next hnested mid' hnext hmore (tiled_readClauses hread _ rfl none hnext)
    exact .single rfl rfl (hparts.append (.single (.inr ⟨rfl, rfl⟩) rfl hhosted))

theorem tiled_readSegment (segment : Segment) (h : Clause.InOrder s lo segment.clauses hi) :
    Tiled s lo (readSegment g read segment).node.toList hi := by
  cases segment with
  | prose raw =>
    simp only [readSegment]
    split
    · exact .nil h
    · exact .leaf rfl rfl h
  | function call nested => exact tiled_readFunction hread call nested h
  | reference name call nested => exact .single rfl rfl (tiled_readFunction hread call nested h)
  | danglingReference | danglingAssignment => exact .nil h
  | emptyReference | use => exact .leaf rfl rfl h
  | command call =>
    rw [Segment.clauses, Segment.calls, List.flatMap_singleton] at h
    exact tiled_readCommand hread call h
  | assignment name call =>
    rw [Segment.clauses, Segment.calls, List.flatMap_singleton] at h
    exact .single rfl rfl (tiled_readCommand hread call h)

end

/-- The nodes of a window lie in it, in order. -/
theorem tiled_readWindow (g : Grammar) (fuel : Nat) {w : Window} (hw : w.LiesIn s) :
    Tiled s w.offset ((readWindow g fuel w).findings.filterMap (·.node)) w.stop := by
  induction fuel generalizing w with
  | zero => exact .nil (Window.LiesIn.offset_le_stop w)
  | succ fuel ih =>
    have hpasses := w.passes_segments s
    have htiled := tiled_flatMap w.segments.1
      (fun segment => tiled_readSegment (g := g) (fun w hw => ih hw) segment) (hpasses.inOrder hw)
    simp only [readWindow, List.filterMap_map]
    rw [List.filterMap_eq_flatMap_toList]
    exact htiled.up_to (hpasses.leadsTo.stop_eq ▸ Window.LiesIn.offset_le_stop _)

/-- The warnings that a segment leaves below the root stand behind its node, and have no spans. -/
theorem tiled_rootNodes (g : Grammar) (fuel : Nat) (segment : Segment)
    (h : Clause.InOrder s lo segment.clauses hi) :
    Tiled s lo (readSegment g (readWindow g fuel) segment).rootNodes hi := by
  refine (tiled_readSegment (fun w hw => tiled_readWindow g fuel hw) segment h).append (.leaves ?_ (Nat.le_refl _))
  exact List.forall_mem_map.2 fun message _ => ⟨rfl, rfl, rfl⟩

theorem tiled_parse (g : Grammar) (initial : Table Json) (source : String) :
    Tiled source 0 [(parse g initial source).document] source.utf8ByteSize := by
  have hw := Window.liesIn_ofSource source
  have hpasses := (Window.ofSource source).passes_segments source
  have htiled := tiled_flatMap (Window.ofSource source).segments.1
    (fun segment => tiled_rootNodes g (Window.ofSource source).length segment) (hpasses.inOrder hw)
  refine .single rfl rfl ?_
  show Tiled source 0 (List.flatMap Finding.rootNodes (List.map _ _)) _
  rw [List.flatMap_map]
  refine htiled.up_to (Nat.le_trans (Window.LiesIn.offset_le_stop _) ?_)
  exact hpasses.leadsTo.stop_eq ▸ hw.stop_le

end Markup

/-- A parsed document says of every parameter, and of every body between delimiters, where its inside stands in
the source: between the signs that open and close it. Places of nodes in preorder are ordered as lists, and a node
is above another if its place is a start of the place of that. So a span lies inside of the spans of all nodes
above, and of two nodes with spans neither of which is above the other, the first ends before the other begins. -/
theorem spans_parse (source : String) :
    let document := (Registry.standard.parse source).document
    (∀ n ∈ document.subtrees, n.label.Placed source) ∧
      ∀ (left right : List Nat) (m n : Node) (a b : Span), document.at? left = some m →
        document.at? right = some n → m.label.span = some a → n.label.span = some b →
        (left <+: right → left ≠ right → a.start < b.start ∧ b.stop < a.stop) ∧
          (left < right → ¬ left <+: right → a.stop < b.start) := by
  intro document
  have htiled : Tiled source 0 [document] source.utf8ByteSize := tiled_parse _ _ source
  refine ⟨fun n hn => htiled.placed n (List.mem_append_left _ hn), fun left right m n a b hm hn ha hb => ?_⟩
  refine ⟨?_, fun hlt hnot => htiled.apart hlt hnot hm hn ha hb⟩
  rintro ⟨below, rfl⟩ hne
  rw [Node.at?_append, hm, Option.bind_some] at hn
  cases below with
  | nil => exact absurd (List.append_nil left).symm hne
  | cons i below => exact (htiled.at? hm).inside hn ha hb

/-- Parameters, braces and fences, a function in place of a body, and a body inside of another. -/
example : (Registry.standard.parse "#a(1)#b\x7bx $t=>y=|\x7d").document.preorder.filterMap (·.2.span) =
    [⟨3, 4⟩, ⟨8, 17⟩, ⟨14, 15⟩] := by decide +kernel

end Evomark
