import Evomark.Proofs.Document.Everywhere
import Evomark.Proofs.Markup.Parsed
import Evomark.Proofs.Markup.Separators
/-!
# The nodes that are read

What may stand below a node depends on its kind, and below a body on the rule of the name before it:
`BodyRule.Allows` says so of what a rule leaves in a body, `CallObeys` of the clauses of a call, and
`Node.Obeys` of any node. `Node.IsRead` says that a node obeys and that its own text is one that is read as
such. It holds of everything that is read, whether it is well formed or not: of what is in a body, of the
clauses of a call and of the segments of a window. So it holds of all of a parsed document (`isRead_parse`).
-/

namespace Evomark

open Markup

/-- A node that a window gives. -/
def Kind.isElement : Kind → Bool
  | text | func | ref | cmd | varUse | varAssign => true
  | _ => false

/-- What the rule leaves in a body. -/
def BodyRule.Allows : BodyRule → List Node → Prop
  | .box, ns => ∀ n ∈ ns, n.kind.isElement = true
  | .code, ns => ns = []
  | .literal, ns =>
    (∀ n ∈ ns, n.kind = .literal ∨ n.kind = .varUse ∨ n.kind = .sep) ∧
      ns.IsChain fun n m => ¬(n.kind = .literal ∧ m.kind = .literal)
  | .config _, ns => ∃ n, ns = [n] ∧ (n.kind = .configDict ∨ n.kind = .warning)
  | .reject, ns => ns = []
  | .shout, ns => ∃ n, ns = [n] ∧ n.kind = .literal

/-- What stands below a call: parameters, and bodies with what the rule leaves in them. A function may also
host a function, in a body that stands last, behind nothing but parameters. -/
structure CallObeys (rule : BodyRule) (bodyKind : Kind) (ns : List Node) : Prop where
  kinds : ∀ n ∈ ns, n.kind = .funcParam ∨ n.kind = bodyKind
  bodies : ∀ n ∈ ns, n.kind = bodyKind → n.label.layout ≠ some .directChild → rule.Allows n.children
  hosts : ∀ front n behind, ns = front ++ n :: behind → n.label.layout = some .directChild →
    bodyKind = .funcBody ∧ n.kind = .funcBody ∧ behind = [] ∧ (∀ m ∈ front, m.kind = .funcParam) ∧
      ∃ hosted, n.children = [hosted] ∧ hosted.kind = .func

/-- What stands below a node. For a body that is up to the call it belongs to. -/
def Node.Obeys (g : Grammar) (n : Node) : Prop :=
  match n.kind with
  | .root => ∀ m ∈ n.children, m.kind.isElement = true ∨ m.kind = .warning
  | .func => CallObeys (g.functionRule n.content) .funcBody n.children
  | .cmd => CallObeys (g.commandRule n.content) .body n.children
  | .ref => n.children = [] ∨ ∃ function, n.children = [function] ∧ function.kind = .func
  | .varAssign => ∃ command, n.children = [command] ∧ command.kind = .cmd
  | .funcBody | .body => True
  | _ => n.children = []

/-- A node as it is read. -/
structure Node.IsRead (g : Grammar) (n : Node) : Prop where
  obeys : n.Obeys g
  slot : n.label.slot = none
  prose : n.kind = .text → IsProse n.content
  /-- Only a shout writes a text that does not stand in the body. -/
  literal : g.Keeps → n.kind = .literal → IsLiteral n.content

/-- A node without a text of its own. -/
theorem Node.IsRead.of_kind {g : Grammar} {n : Node} (hk : (n.kind == .text || n.kind == .literal) = false)
    (hslot : n.label.slot = none) (h : n.Obeys g) : n.IsRead g := by
  simp only [Bool.or_eq_false_iff, beq_eq_false_iff_ne] at hk
  exact ⟨h, hslot, fun htext => absurd htext hk.1, fun _ hliteral => absurd hliteral hk.2⟩

/-- A body is read if what stands in it is. -/
theorem Node.IsRead.of_isBody {g : Grammar} {label : Label} (hb : label.kind.isBody = true)
    (hslot : label.slot = none) (children : List Node) : Node.IsRead g ⟨label, children⟩ := by
  obtain ⟨kind⟩ := label
  have hb : kind.isBody = true := hb
  cases kind <;> first | exact absurd hb (by decide) | exact .of_kind rfl hslot trivial

/-- The nodes and all below them are as they are read. -/
def AllRead (g : Grammar) (ns : List Node) : Prop := Everywhere (Node.IsRead g) ns

namespace Markup

variable {g : Grammar}

/-! ## Literal bodies -/

/-- Of two literals the latter would be part of the former. -/
theorem IsFlow.allows {marked : Bool} {prev : Option Kind} {ns : List Node} (h : IsFlow g marked false prev ns) :
    BodyRule.literal.Allows ns ∧ (prev = some .literal → ∀ n ∈ ns.head?, n.kind ≠ .literal) := by
  induction ns generalizing prev with
  | nil => exact ⟨⟨by simp, .nil⟩, by simp⟩
  | cons n rest ih =>
    obtain ⟨hrest, ⟨hbox, -⟩ | ⟨hbox, -⟩ | ⟨-, -, -, hitem⟩⟩ := h.cases
    · cases hbox
    · cases hbox
    · obtain ⟨⟨hkinds, hchain⟩, hnext⟩ := ih hrest
      have hkind : n.kind = .literal ∨ n.kind = .varUse ∨ n.kind = .sep := by
        cases hk : n.kind <;> rw [hk] at hitem <;> first | exact hitem.elim | simp
      refine ⟨⟨List.forall_mem_cons.2 ⟨hkind, hkinds⟩, List.isChain_cons.2 ⟨fun m hm => ?_, hchain⟩⟩, ?_⟩
      · exact fun hboth => hnext (congrArg some hboth.1) m hm hboth.2
      · rintro hprev m hm hk
        obtain rfl := Option.some.inj hm
        rw [hk] at hitem
        exact hitem.2.2 hprev

theorem IsFlow.isLiteral {marked : Bool} {prev : Option Kind} {ns : List Node}
    (h : IsFlow g marked false prev ns) : ∀ n ∈ ns, n.kind = .literal → IsLiteral n.content := by
  induction ns generalizing prev with
  | nil => simp
  | cons n rest ih =>
    obtain ⟨hrest, ⟨hbox, -⟩ | ⟨hbox, -⟩ | ⟨-, -, -, hitem⟩⟩ := h.cases
    · cases hbox
    · cases hbox
    · refine List.forall_mem_cons.2 ⟨fun hk => ?_, ih hrest⟩
      rw [hk] at hitem
      exact hitem.2.1

theorem allRead_literalNodes (cs : List Char) : AllRead g (literalNodes cs) := by
  have hliteral := (isFlow_literalNodes (g := g) cs).isLiteral
  refine .leaves fun n hn => ?_
  have htext := hliteral n hn
  cases isItem_of_mem_literalNodesFrom hn with
  | literal content => exact ⟨rfl, rfl, rfl, Kind.noConfusion, fun _ => htext⟩
  | use | sep => exact ⟨rfl, .of_kind rfl rfl rfl⟩

/-! ## Bodies and clauses -/

/-- What is found is one of the nodes of a box, and as it is read. -/
structure Finding.IsRead (g : Grammar) (f : Finding) : Prop where
  nodes : AllRead g f.node.toList
  kind : ∀ n ∈ f.node, n.kind.isElement = true

section

variable {read : Window → Contents}

theorem isRead_readBody (hread : ∀ w, ∀ f ∈ (read w).findings, f.IsRead g) {rule : BodyRule}
    (hrule : g.Keeps → rule ≠ .shout) (param : Option Json) (w : Window) :
    AllRead g (readBody read rule param w).children ∧ rule.Allows (readBody read rule param w).children := by
  cases rule with
  | box =>
    constructor
    · show AllRead g ((read w).findings.filterMap (·.node))
      rw [List.filterMap_eq_flatMap_toList]
      exact .flatMap fun f hf => (hread w f hf).nodes
    · intro n hn
      obtain ⟨f, hf, hnode⟩ := List.mem_filterMap.1 hn
      exact (hread w f hf).kind n hnode
  | code | reject => exact ⟨.nil, rfl⟩
  | literal => exact ⟨allRead_literalNodes w.chars, (isFlow_literalNodes (g := g) w.chars).allows.1⟩
  | config space =>
    simp only [readBody, readSettings]
    split
    · exact ⟨.leaf (.of_kind rfl rfl rfl), _, rfl, .inl rfl⟩
    · exact ⟨.leaf (.of_kind rfl rfl rfl), _, rfl, .inr rfl⟩
  | shout => exact ⟨.leaf ⟨rfl, rfl, Kind.noConfusion, fun hg => absurd rfl (hrule hg)⟩, _, rfl, rfl⟩

/-- Clauses give parameters and bodies between delimiters. -/
theorem isRead_readClauses (hread : ∀ w, ∀ f ∈ (read w).findings, f.IsRead g) {rule : BodyRule}
    (hrule : g.Keeps → rule ≠ .shout) {bodyKind : Kind} (hb : bodyKind.isBody = true) (param : Option Json)
    {clauses : List Clause} (hf : ∀ c ∈ clauses, c.Formed) :
    let nodes := (readClauses read rule bodyKind param clauses).nodes
    AllRead g nodes ∧ ∀ n ∈ nodes, (n.kind = .funcParam ∨ n.kind = bodyKind ∧ rule.Allows n.children) ∧
      n.label.layout ≠ some .directChild := by
  induction clauses generalizing param with
  | nil => exact ⟨.nil, by simp [readClauses]⟩
  | cons clause more ih =>
    rw [List.forall_mem_cons] at hf
    cases clause with
    | param raw value span =>
      obtain ⟨hmore, hnodes⟩ := ih (some value) hf.2
      refine ⟨Everywhere.append (.leaf (.of_kind rfl rfl rfl)) hmore, List.forall_mem_cons.2 ⟨?_, hnodes⟩⟩
      exact ⟨.inl rfl, (Option.some_ne_none _).symm⟩
    | body layout inner =>
      obtain ⟨hmore, hnodes⟩ := ih param hf.2
      obtain ⟨hbody, hallows⟩ := isRead_readBody hread hrule param inner
      have hlayout : some layout ≠ some Layout.directChild := by
        rintro ⟨⟩
        exact hf.1
      refine ⟨Everywhere.append (.node (.of_isBody hb rfl _) hbody) hmore, List.forall_mem_cons.2 ⟨?_, hnodes⟩⟩
      exact ⟨.inr ⟨rfl, hallows⟩, hlayout⟩

/-- The clauses that are parameters can be told by their nodes. -/
theorem kinds_readClauses (read : Window → Contents) (rule : BodyRule) (kind : Kind)
    (hkind : kind ≠ .funcParam) (param : Option Json) (clauses : List Clause) :
    ((readClauses read rule kind param clauses).nodes.map (·.label)).all (·.kind == .funcParam) =
      clauses.all (·.isParam) := by
  induction clauses generalizing param with
  | nil => rfl
  | cons c more ih =>
    cases c with
    | param raw value span =>
      simp only [readClauses, List.map_cons, List.all_cons, ih]
      rfl
    | body layout inner =>
      simp only [readClauses, List.map_cons, List.all_cons, beq_eq_false_iff_ne.2 hkind, Bool.false_and]
      rfl

/-- A call with clauses only. -/
theorem callObeys_of_clauses {rule : BodyRule} {bodyKind : Kind} (hb : bodyKind.isBody = true)
    {ns : List Node} (h : ∀ n ∈ ns, (n.kind = .funcParam ∨ n.kind = bodyKind ∧ rule.Allows n.children) ∧
      n.label.layout ≠ some .directChild) : CallObeys rule bodyKind ns where
  kinds n hn := (h n hn).1.imp_right And.left
  bodies n hn hk _ := by
    rcases (h n hn).1 with hparam | ⟨-, hallows⟩
    · rw [hk] at hparam
      rw [hparam] at hb
      exact absurd hb (by decide)
    · exact hallows
  hosts front n behind hns hl := absurd hl (h n (hns ▸ List.mem_append_right _ (.head _))).2

/-- A function that hosts another behind its parameters. -/
theorem callObeys_host {rule : BodyRule} {ns : List Node} {hosted : Node}
    (h : ∀ n ∈ ns, n.kind = .funcParam ∧ n.label.layout ≠ some .directChild) (hk : hosted.kind = .func) :
    CallObeys rule .funcBody (ns ++ [directBody (some hosted)]) where
  kinds n hn := by
    rcases List.mem_append.1 hn with hn | hn
    · exact .inl (h n hn).1
    · rw [List.mem_singleton.1 hn]
      exact .inr rfl
  bodies n hn hkind hl := by
    rcases List.mem_append.1 hn with hn | hn
    · rw [(h n hn).1] at hkind
      cases hkind
    · rw [List.mem_singleton.1 hn] at hl
      exact absurd rfl hl
  hosts front n behind hns hl := by
    rcases List.eq_nil_or_concat behind with rfl | ⟨init, last, rfl⟩
    · obtain ⟨rfl, hn⟩ := List.append_inj' hns rfl
      obtain rfl := List.singleton_inj.1 hn
      exact ⟨rfl, rfl, rfl, fun m hm => (h m hm).1, hosted, rfl, hk⟩
    · -- what stands before the last node is a parameter
      rw [List.concat_eq_append, ← List.cons_append, ← List.append_assoc] at hns
      obtain ⟨rfl, -⟩ := List.append_inj' hns rfl
      exact absurd hl (h n (List.mem_append_right _ (.head _))).2

/-! ## Segments -/

theorem isRead_readCommand (hread : ∀ w, ∀ f ∈ (read w).findings, f.IsRead g) {call : Call}
    (hf : call.Formed) :
    ∃ n, (readCommand g read call).node = some n ∧ n.kind = .cmd ∧ AllRead g [n] := by
  have hrule (hg : g.Keeps) : g.commandRule call.name ≠ .shout := by simp [hg.commands]
  obtain ⟨hparts, hnodes⟩ := isRead_readClauses hread hrule (rfl : Kind.body.isBody = true) none hf.2
  exact ⟨_, rfl, rfl, .node (.of_kind rfl rfl (callObeys_of_clauses rfl hnodes)) hparts⟩

theorem isRead_readFunction (hread : ∀ w, ∀ f ∈ (read w).findings, f.IsRead g) {call : Call}
    {nested : List Call} (hf : call.ChainFormed nested) :
    ∃ n, (readFunction g read call nested).node = some n ∧ n.kind = .func ∧ AllRead g [n] := by
  have hrule (name : String) (hg : g.Keeps) : g.functionRule name ≠ .shout := by
    rcases hg.functions name with h | h | ⟨space, h⟩ <;> simp [h]
  induction nested generalizing call with
  | nil =>
    obtain ⟨hparts, hnodes⟩ :=
      isRead_readClauses hread (hrule call.name) (rfl : Kind.funcBody.isBody = true) none hf.2
    exact ⟨_, rfl, rfl, .node (.of_kind rfl rfl (callObeys_of_clauses rfl hnodes)) hparts⟩
  | cons next more ih =>
    obtain ⟨hcall, hparams, hnext⟩ := hf
    obtain ⟨hosted, hnode, hk, hosts⟩ := ih hnext
    obtain ⟨hparts, hnodes⟩ :=
      isRead_readClauses hread (hrule call.name) (rfl : Kind.funcBody.isBody = true) none hcall.2
    have hkinds := kinds_readClauses read (g.functionRule call.name) .funcBody Kind.noConfusion none call.clauses
    rw [hparams, List.all_map, List.all_eq_true] at hkinds
    refine ⟨_, rfl, rfl, .node (.of_kind rfl rfl ?_) (hparts.append (.node (.of_isBody rfl rfl _) ?_))⟩
    · simp only [hnode]
      exact callObeys_host (fun n hn => ⟨beq_iff_eq.1 (hkinds n hn), (hnodes n hn).2⟩) hk
    · rwa [hnode]

theorem isRead_readSegment (hread : ∀ w, ∀ f ∈ (read w).findings, f.IsRead g) {segment : Segment}
    (hf : segment.Formed) : (readSegment g read segment).IsRead g := by
  have hnone {f : Finding} (h : f.node = none) : f.IsRead g := by
    refine ⟨?_, ?_⟩ <;> rw [h]
    · exact .nil
    · exact fun _ hn => absurd hn (by simp)
  have hsome {f : Finding} {n : Node} (h : f.node = some n) (hk : n.kind.isElement = true)
      (hn : AllRead g [n]) : f.IsRead g := by
    refine ⟨?_, ?_⟩ <;> rw [h]
    · exact hn
    · exact fun m hm => Option.some.inj hm ▸ hk
  cases segment with
  | prose raw =>
    simp only [readSegment]
    split
    · exact hnone rfl
    · rename_i hne
      refine hsome rfl rfl (.leaf ⟨rfl, rfl, fun _ => ?_, fun _ => Kind.noConfusion⟩)
      exact isProse_of_isRawProse hf (by simpa using hne)
  | function call nested =>
    obtain ⟨n, hnode, hk, hn⟩ := isRead_readFunction hread hf
    exact hsome hnode (hk ▸ rfl) hn
  | reference name call nested =>
    obtain ⟨n, hnode, hk, hn⟩ := isRead_readFunction hread hf.2
    refine hsome (n := ⟨{ kind := .ref, content := name }, [n]⟩) ?_ rfl
      (.node (.of_kind rfl rfl (.inr ⟨n, rfl, hk⟩)) hn)
    rw [readSegment, Finding.under, hnode]
    rfl
  | danglingReference name => exact hnone rfl
  | emptyReference name => exact hsome rfl rfl (.leaf (.of_kind rfl rfl (.inl rfl)))
  | command call =>
    obtain ⟨n, hnode, hk, hn⟩ := isRead_readCommand hread hf
    exact hsome hnode (hk ▸ rfl) hn
  | use name => exact hsome rfl rfl (.leaf (.of_kind rfl rfl rfl))
  | assignment name call =>
    obtain ⟨n, hnode, hk, hn⟩ := isRead_readCommand hread hf.2
    refine hsome (n := ⟨{ kind := .varAssign, content := name }, [n]⟩) ?_ rfl
      (.node (.of_kind rfl rfl ⟨n, rfl, hk⟩) hn)
    rw [readSegment, Finding.under, hnode]
    rfl
  | danglingAssignment name => exact hnone rfl

end

/-! ## Documents -/

/-- What a window gives is as it is read. -/
theorem isRead_readWindow (g : Grammar) (fuel : Nat) (w : Window) :
    ∀ f ∈ (readWindow g fuel w).findings, f.IsRead g := by
  induction fuel generalizing w with
  | zero => simp [readWindow]
  | succ fuel ih =>
    simp only [readWindow, List.forall_mem_map]
    exact fun segment hs => isRead_readSegment ih (Window.formed_of_mem_segments hs)

/-- All of a parsed document is as it is read. -/
theorem isRead_parse (g : Grammar) (initial : Table Json) (source : String) :
    ∀ n ∈ (parse g initial source).document.subtrees, n.IsRead g := by
  have hfindings := isRead_readWindow g (Window.length (.ofSource source) + 1) (.ofSource source)
  have hroot : AllRead g [(parse g initial source).document] := by
    refine Everywhere.node (.of_kind rfl rfl fun n hn => ?_)
      (.flatMap fun f hf => (hfindings f hf).nodes.append (.leaves ?_))
    · obtain ⟨f, hf, hnode⟩ := List.mem_flatMap.1 hn
      rcases List.mem_append.1 hnode with hnode | hwarning
      · exact .inl ((hfindings f hf).kind n (Option.mem_toList.1 hnode))
      · obtain ⟨message, -, rfl⟩ := List.mem_map.1 hwarning
        exact .inr rfl
    · rintro n hn
      obtain ⟨message, -, rfl⟩ := List.mem_map.1 hn
      exact ⟨rfl, .of_kind rfl rfl rfl⟩
  intro n hn
  exact hroot n (List.mem_append_left _ hn)

/-- All of a parsed document obeys. -/
theorem obeys_parse (g : Grammar) (initial : Table Json) (source : String) :
    ∀ n ∈ (parse g initial source).document.subtrees, n.Obeys g :=
  fun n hn => (isRead_parse g initial source n hn).obeys

end Markup

end Evomark
