import Evomark.Proofs.Exec.Message
import Evomark.Proofs.Exec.Reread
/-!
# Passes keep the shape of documents

A pass with the standard rules over a document that has been read leaves a document of the shape
that documents have after passes: results and markers are where they may be, and what the markers
show is a literal (`isFlow_exec`).
-/

namespace Evomark

open Node Markup

variable {g : Grammar}

/-! ## What a pass meets -/

mutual

theorem meets_of_isElement (hg : g.Keeps) : ∀ {n : Node}, IsElement g false n →
    n.Meets (IsElement g false)
  | ⟨label, children⟩, h => by
    have helement := h
    rw [Node.Meets]
    split
    · exact h
    · rename_i hn
      unfold IsElement at h
      have h := h.2
      cases hk : label.kind <;> rw [hk] at h hn <;>
        first | exact h.elim | exact absurd rfl hn | skip
      case text =>
        rw [h.2]
        exact ⟨by decide, trivial⟩
      case func => exact ⟨by decide, meetsAll_of_isClauses hg (hg.literal_function _) h.2⟩
      case ref => exact ⟨by decide, meetsAll_of_isCall hg h.2⟩

theorem meetsAll_of_isCall (hg : g.Keeps) {kind : Kind} : ∀ {ns : List Node}, IsCall g false kind ns →
    MeetsAll (IsElement g false) ns
  | n :: rest, h => by
    unfold IsCall at h
    obtain ⟨-, rfl, h⟩ := h
    exact ⟨meets_of_isElement hg h, trivial⟩

theorem meetsAll_of_isClauses (hg : g.Keeps) {rule : BodyRule}
    (hrule : rule = .literal ↔ Kind.funcBody = .body) : ∀ {param : Option Json} {hosts : Bool}
    {ns : List Node}, IsClauses g false rule .funcBody param hosts ns → MeetsAll (IsElement g false) ns
  | _, _, [], _ => trivial
  | param, hosts, ⟨label, children⟩ :: rest, h => by
    obtain ⟨hk, rfl, -, value, -, hrest⟩ | ⟨-, hm, -⟩ | ⟨hk, -, -, -, rfl, -, hcall⟩ |
      ⟨hk, -, -, hbody, hrest⟩ := h.cases
    · refine ⟨?_, meetsAll_of_isClauses hg hrule hrest⟩
      rw [Node.Meets, hk]
      exact ⟨by decide, trivial⟩
    · exact absurd hm (by decide)
    · refine ⟨?_, trivial⟩
      rw [Node.Meets, hk]
      exact ⟨by decide, meetsAll_of_isCall hg hcall⟩
    · refine ⟨?_, meetsAll_of_isClauses hg hrule hrest⟩
      rw [Node.Meets, hk]
      refine ⟨by decide, ?_⟩
      unfold IsBody at hbody
      cases rule with
      | box => exact meetsAll_of_isFlow hg hbody.2.2
      | literal => exact absurd (hrule.1 rfl) (by decide)
      | code =>
        rw [hbody.2]
        trivial
      | config space =>
        obtain ⟨value, hchildren⟩ := children_readSettings (hbody.2.1 ▸ hbody.2.2)
        rw [hbody.2.1, hchildren]
        exact ⟨⟨Kind.noConfusion, trivial⟩, trivial⟩
      | reject | shout => exact hbody.elim

theorem meetsAll_of_isFlow (hg : g.Keeps) : ∀ {prev : Option Kind} {ns : List Node},
    IsFlow g false true prev ns → MeetsAll (IsElement g false) ns
  | _, [], _ => trivial
  | prev, n :: rest, h => by
    obtain ⟨hflow, ⟨-, -, hm, -⟩ | ⟨-, -, helement⟩ | ⟨hb, -⟩⟩ := h.cases
    · exact absurd hm (by decide)
    · exact ⟨meets_of_isElement hg helement, meetsAll_of_isFlow hg hflow⟩
    · exact absurd hb (by decide)

end

/-! ## Steps -/

/-- The variables used in a literal body have names. -/
theorem isName_of_mem_usedNames {marked : Bool} {prev : Option Kind} {items : List Node}
    (h : IsFlow g marked false prev items) : ∀ name ∈ usedNames items, IsName name := by
  induction items generalizing prev with
  | nil => exact fun _ h => absurd h List.not_mem_nil
  | cons n rest ih =>
    obtain ⟨hflow, ⟨hb, -⟩ | ⟨hb, -⟩ | ⟨-, -, -, hitem⟩⟩ := h.cases
    · exact absurd hb (by decide)
    · exact absurd hb (by decide)
    · unfold usedNames at ih ⊢
      rw [List.filter_cons]
      split
      · rename_i hk
        have hk : n.kind = .varUse := by simpa using hk
        rw [hk] at hitem
        exact List.forall_mem_cons.2 ⟨hitem.2, ih hflow⟩
      · exact ih hflow

theorem isFlow_of_firstBody? {marked : Bool} {param : Option Json} {hosts : Bool}
    (hh : hosts = true → False) {ns : List Node} {body : Node}
    (h : IsClauses g marked .literal .body param hosts ns)
    (hbody : ns.find? (·.kind.isBody) = some body) : IsFlow g marked false none body.children := by
  induction ns generalizing param hosts with
  | nil => simp at hbody
  | cons n rest ih =>
    obtain ⟨label, children⟩ := n
    obtain ⟨hk, -, -, value, -, hrest⟩ | ⟨hk, -, -, hrest⟩ | ⟨-, -, -, ht, -⟩ | ⟨hk, -, -, hb, -⟩ := h.cases
    · rw [List.find?_cons_of_neg (by simp [Node.kind, hk, Kind.isBody])] at hbody
      exact ih hh hrest hbody
    · rw [List.find?_cons_of_neg (by simp [Node.kind, hk, Kind.isBody])] at hbody
      exact ih hh hrest hbody
    · exact (hh ht).elim
    · rw [List.find?_cons_of_pos (by simp [Node.kind, hk, Kind.isBody])] at hbody
      obtain rfl := Option.some.inj hbody
      unfold IsBody at hb
      exact hb.2.2

/-- The variables used in the body of a command have names. -/
theorem isName_of_bodyItems (hg : g.Keeps) {marked : Bool} {n : Node} (h : IsElement g marked n)
    (hk : n.kind = .cmd) : ∀ name ∈ usedNames (ExecRule.bodyItems n), IsName name := by
  obtain ⟨label, children⟩ := n
  have hk : label.kind = .cmd := hk
  unfold IsElement at h
  rw [hk, hg.commands] at h
  unfold ExecRule.bodyItems
  cases hbody : (Node.mk label children).firstBody? with
  | none => exact fun _ h => absurd h List.not_mem_nil
  | some body => exact isName_of_mem_usedNames (isFlow_of_firstBody? (by decide) h.2.2 hbody)

/-- Results may stand behind the clauses of a command. -/
theorem isClauses_attachResult {rule : BodyRule} (text : String) {param : Option Json} {hosts : Bool}
    {ns : List Node} (hh : hosts = true → False) (h : IsClauses g false rule .body param hosts ns) :
    IsClauses g true rule .body param hosts
      (ns.filter (·.kind != .literal) ++ [.leaf { kind := .literal, content := text }]) := by
  induction ns generalizing param hosts with
  | nil =>
    rw [List.filter_nil, List.nil_append]
    unfold IsClauses
    refine ⟨rfl, rfl, ?_⟩
    unfold IsClauses
    trivial
  | cons n rest ih =>
    obtain ⟨label, children⟩ := n
    obtain ⟨hk, hc, hl, value, hv, hrest⟩ | ⟨-, hm, -⟩ | ⟨-, -, -, ht, -⟩ | ⟨hk, hv, hl, hb, hrest⟩ := h.cases
    · rw [List.filter_cons_of_pos (by simp [Node.kind, hk]), List.cons_append]
      unfold IsClauses
      simp only [Node.kind, hk]
      refine ⟨hc, hl, by rw [hv]; rfl, ?_⟩
      rw [hv]
      exact ih hh hrest
    · exact absurd hm (by decide)
    · exact (hh ht).elim
    · rw [List.filter_cons_of_pos (by simp [Node.kind, hk]), List.cons_append]
      exact isClauses_body_cons rfl hk hv hl (IsBody.marked hb) (ih (by decide) hrest)

theorem isElement_runUse {n m : Node} {s t : ExecState} (h : IsElement g false n)
    (hk : n.kind = .varUse) (hr : runUse n s = .ok (m, t)) : IsElement g true m := by
  obtain ⟨label, children⟩ := n
  have hk : label.kind = .varUse := hk
  unfold IsElement at h
  rw [hk] at h
  obtain ⟨hplain, hname, hchildren⟩ := h
  have huse : ∀ results : List Node, (∀ r ∈ results, r.kind = .literal) →
      IsElement g true ⟨label, children.filter (·.kind != .literal) ++ results⟩ := by
    intro results hresults
    unfold IsElement
    rw [hk]
    refine ⟨hplain, hname, List.forall_mem_append.2 ⟨fun n hn => ?_, fun r hr => ⟨rfl, hresults r hr⟩⟩⟩
    exact absurd (hchildren n (List.mem_filter.1 hn).1).1 (by decide)
  unfold runUse at hr
  split at hr
  · simp at hr
  · simp only at hr
    split at hr
    · obtain ⟨rfl, -⟩ := Prod.mk.inj (Except.ok.inj hr)
      exact huse _ (by simp [Node.leaf, Node.kind])
    · obtain ⟨rfl, -⟩ := Prod.mk.inj (Except.ok.inj hr)
      have hnone := huse [] (by simp)
      rwa [List.append_nil] at hnone

theorem isElement_runCommand {n : Node} {s : ExecState} {done : Executed} {rule : ExecRule}
    (h : IsElement g false n) (hk : n.kind = .cmd) (hr : rule.run n none s = .ok done) :
    IsElement g true done.command := by
  obtain ⟨e, he, -⟩ | ⟨host, t, he, -⟩ | ⟨-, -, text, t, he, -⟩ :=
    rule.run_cases none s (ExecRule.SameText.of_bodyItems (c := n) rfl)
  · simp [hr] at he
  · rw [hr] at he
    obtain rfl := Except.ok.inj he
    exact IsElement.marked h
  · rw [hr] at he
    obtain rfl := Except.ok.inj he
    obtain ⟨label, children⟩ := n
    have hk : label.kind = .cmd := hk
    show IsElement g true ⟨label, _⟩
    unfold IsElement at h ⊢
    rw [hk] at h ⊢
    exact ⟨h.1, h.2.1, isClauses_attachResult text (by decide) h.2.2⟩

/-- A step keeps a command an element. -/
theorem isElement_runStep {n m : Node} {s t : ExecState} (h : IsElement g false n)
    (hr : runStep Registry.standard.execution n s = .ok (m, t)) : IsElement g true m := by
  obtain ⟨hk, hr⟩ | ⟨rule, done, hk, -, hdone, rfl, -⟩ | ⟨-, -, -, -, hk, -⟩ := runStep_inv hr
  · exact isElement_runUse h hk hr
  · exact isElement_runCommand h hk hdone
  · have hm : runAssignment Registry.standard.execution n s = .ok (m, t) := by rw [← hr, runStep, hk]
    rw [eq_of_runAssignment hm]
    exact IsElement.marked h

/-- An assignment has a name and stands over a command. -/
theorem Markup.IsElement.of_varAssign {marked : Bool} {n : Node} (h : IsElement g marked n) (hk : n.kind = .varAssign) :
    IsName n.content ∧ IsCall g marked .cmd n.children := by
  obtain ⟨label, children⟩ := n
  have hk : label.kind = .varAssign := hk
  unfold IsElement at h
  rw [hk] at h
  exact h.2

theorem Markup.IsElement.name_of_varUse {marked : Bool} {n : Node} (h : IsElement g marked n) (hk : n.kind = .varUse) :
    IsName n.content := by
  obtain ⟨label, children⟩ := n
  have hk : label.kind = .varUse := hk
  unfold IsElement at h
  rw [hk] at h
  exact h.2.1

/-- The variables that a step looks at have names. -/
theorem isName_of_command? (hg : g.Keeps) {marked : Bool} {n c : Node} (h : IsElement g marked n)
    (hc : n.command? = some c) : ∀ name ∈ usedNames (ExecRule.bodyItems c), IsName name := by
  obtain ⟨hk, rfl⟩ | ⟨hk, rest, hchildren, hcmd⟩ := command?_cases hc
  · exact isName_of_bodyItems hg h hk
  · have hcall := (h.of_varAssign hk).2
    rw [hchildren] at hcall
    unfold IsCall at hcall
    exact isName_of_bodyItems hg hcall.2.2 hcmd

/-- A step keeps hosts named and warnings messages. -/
theorem speaks_runStep (hg : g.Keeps) {n m : Node} {s t : ExecState} (h : IsElement g false n) (hs : s.Speaks)
    (hr : runStep Registry.standard.execution n s = .ok (m, t)) : t.Speaks := by
  refine hs.runStep (fun hcmd => ?_) (fun c hc => isName_of_command? hg h hc) hr
  obtain ⟨hk, -⟩ | ⟨-, -, hk, -⟩ | ⟨-, -, -, -, hk, -⟩ := runStep_inv hr
  · exact h.name_of_varUse hk
  · exact absurd hk hcmd
  · exact (h.of_varAssign hk).1

/-! ## A whole pass -/

/-- What a pass makes of nodes has their shape, as nodes of a box, below a call, and as a call that
stands alone. -/
structure KeepsShape (g : Grammar) (ns ms : List Node) : Prop where
  flow : ∀ prev prev', IsFlow g false true prev ns → IsFlow g true true prev' ms
  clauses : ∀ rule param hosts, rule ≠ .literal → IsClauses g false rule .funcBody param hosts ns →
    IsClauses g true rule .funcBody param hosts ms
  call : IsCall g false .func ns → IsCall g true .func ms
  nil : ns = [] → ms = []
  dictionary : ∀ label : Label, label.kind = .configDict → ns = [.leaf label] → ms = ns

/-- The first node of a box that has not been executed is an element. -/
theorem Markup.IsFlow.element {prev : Option Kind} {n : Node} {rest : List Node}
    (h : IsFlow g false true prev (n :: rest)) :
    (n.kind ≠ .sep ∧ IsElement g false n) ∧ IsFlow g false true (some n.kind) rest := by
  obtain ⟨hflow, ⟨-, -, hm, -⟩ | ⟨-, hk, helement⟩ | ⟨hb, -⟩⟩ := h.cases
  · exact absurd hm (by decide)
  · exact ⟨⟨hk, helement⟩, hflow⟩
  · exact absurd hb (by decide)

theorem isFlow_cons {marked : Bool} {prev : Option Kind} {n : Node} {rest : List Node}
    (hk : n.kind ≠ .sep) (h : IsElement g marked n) (hrest : IsFlow g marked true (some n.kind) rest) :
    IsFlow g marked true prev (n :: rest) := by
  unfold IsFlow
  rw [if_pos rfl, if_neg hk]
  exact ⟨h, hrest⟩

/-- What stands in front does not matter in a box that has not been executed. -/
theorem Markup.IsFlow.behind {prev : Option Kind} {ns : List Node} (h : IsFlow g false true prev ns)
    (prev' : Option Kind) : IsFlow g false true prev' ns := by
  cases ns with
  | nil =>
    unfold IsFlow
    trivial
  | cons n rest =>
    obtain ⟨⟨hk, helement⟩, hflow⟩ := h.element
    exact isFlow_cons hk helement hflow

/-! ### Markers -/

theorem isFlow_nil {marked inBox : Bool} {prev : Option Kind} : IsFlow g marked inBox prev [] := by
  unfold IsFlow
  trivial

theorem isElement_warningMarker (hg : g.Keeps) {message : String} (hm : IsLiteral message)
    (layout : Layout) (hl : layout = .inline ∨ layout = .block) :
    IsElement g true ⟨{ kind := .cmd, content := warningName },
      [⟨{ kind := .body, layout := some layout }, [.leaf { kind := .literal, content := message }]⟩]⟩ := by
  have hname : IsName warningName := ⟨'w', "arning".toList, rfl, by decide, Text.forall_mem_of_all rfl⟩
  have hbody : IsBody g true .literal none ⟨{ kind := .body, layout := some layout },
      [.leaf { kind := .literal, content := message }]⟩ := by
    unfold IsBody
    refine ⟨?_, rfl, ?_⟩
    · rcases hl with rfl | rfl
      · exact List.not_mem_nil
      · exact fun h => absurd h (by decide)
    · unfold IsFlow
      exact ⟨⟨rfl, rfl, rfl, hm, by simp⟩, isFlow_nil⟩
  unfold IsElement
  refine ⟨⟨rfl, rfl⟩, hname, ?_⟩
  rw [hg.commands]
  refine isClauses_body_cons rfl rfl rfl (by rcases hl with rfl | rfl <;> simp) hbody ?_
  unfold IsClauses
  trivial

theorem isElement_haltMarker : IsElement g true haltMarker := by
  unfold haltMarker Node.leaf IsElement
  refine ⟨⟨rfl, rfl⟩, ⟨'h', "alted_here".toList, rfl, by decide, Text.forall_mem_of_all rfl⟩, ?_⟩
  unfold IsClauses
  trivial

/-- Messages are shown by a marker in front of other nodes. -/
theorem isFlow_warningMarkers (hg : g.Keeps) {warnings : List String} (hw : ∀ m ∈ warnings, IsMessage m)
    {ns : List Node} (h : ∀ prev, IsFlow g true true prev ns) (prev : Option Kind) :
    IsFlow g true true prev (warningMarkers warnings ++ ns) := by
  unfold warningMarkers
  split
  · exact h prev
  · rename_i hne
    have hliteral := isLiteral_intercalate (by simpa using hne) hw
    refine isFlow_cons Kind.noConfusion (isElement_warningMarker hg hliteral _ ?_) ?_
    · split
      · exact .inr rfl
      · exact .inl rfl
    · show IsFlow g true true (some .cmd) (.leaf { kind := .sep, value := some (.int 1) } :: ns)
      unfold IsFlow
      rw [if_pos rfl, if_pos (show Node.kind (.leaf _) = .sep from rfl)]
      exact ⟨⟨rfl, rfl, rfl, rfl⟩, h _⟩

theorem afterMarker_of_isFlow {prev : Option Kind} {n : Node} {rest : List Node}
    (h : IsFlow g false true prev rest) : afterMarker n rest = rest := by
  cases rest with
  | nil => rfl
  | cons sep more =>
    rw [afterMarker, if_neg]
    simp [isMarkerSep, h.element.1.1]

theorem isFlow_stripMarkers {ns : List Node} {prev : Option Kind} (h : IsFlow g false true prev ns) :
    IsFlow g false true prev (stripMarkers ns) := by
  induction ns generalizing prev with
  | nil => exact h
  | cons n rest ih =>
    cases hm : n.isMarker with
    | false =>
      rw [stripMarkers_of_not_marker hm]
      exact h
    | true =>
      have hrest := h.element.2
      rw [stripMarkers_of_marker hm, afterMarker_of_isFlow hrest]
      exact ih (hrest.behind prev)

theorem isFlow_behindHalt (hg : g.Keeps) {warnings : List String} (hw : ∀ m ∈ warnings, IsMessage m)
    {ns : List Node} {prev : Option Kind} (h : IsFlow g false true prev ns) (prev' : Option Kind) :
    IsFlow g true true prev' (behindHalt warnings ns) := by
  have hbehind : ∀ prev, IsFlow g true true prev (warningMarkers warnings ++ stripMarkers ns) :=
    isFlow_warningMarkers hg hw fun prev => IsFlow.marked ((isFlow_stripMarkers h).behind prev)
  unfold behindHalt
  simp only
  split
  · exact hbehind prev'
  · exact isFlow_cons Kind.noConfusion isElement_haltMarker (hbehind _)

/-! ### Nodes that are not executed -/

namespace KeepsShape

variable {n m : Node} {ns ms rest : List Node}

theorem refl (ns : List Node) : KeepsShape g ns ns where
  flow _ prev' h := IsFlow.marked (h.behind prev')
  clauses _ _ _ _ h := IsClauses.marked h
  call h := IsCall.marked h
  nil h := h
  dictionary _ _ _ := rfl

/-- Below a call and as a call that stands alone there are no commands. -/
theorem of_flow (hn : n.kind.isCommand = true)
    (h : ∀ prev prev', IsFlow g false true prev (n :: rest) → IsFlow g true true prev' ms) :
    KeepsShape g (n :: rest) ms where
  flow := h
  clauses rule param hosts _ hc := by
    obtain ⟨label, children⟩ := n
    have hn : label.kind.isCommand = true := hn
    obtain ⟨hk, -⟩ | ⟨hk, -⟩ | ⟨hk, -⟩ | ⟨hk, -⟩ := hc.cases <;>
    · rw [hk] at hn
      exact absurd hn (by decide)
  call hc := by
    unfold IsCall at hc
    rw [hc.1] at hn
    exact absurd hn (by decide)
  nil h := absurd h (List.cons_ne_nil _ _)
  dictionary label hl h := by
    obtain ⟨rfl, -⟩ := List.cons.inj h
    rw [show (Node.leaf label).kind = .configDict from hl] at hn
    exact absurd hn (by decide)

theorem marker (h : KeepsShape g (afterMarker n rest) ms) (hm : n.isMarker = true) :
    KeepsShape g (n :: rest) ms := by
  refine of_flow (isCommand_of_isMarker hm) fun prev prev' hflow => ?_
  have hrest := hflow.element.2
  rw [afterMarker_of_isFlow hrest] at h
  exact h.flow _ _ hrest

/-- A node that is not executed itself, with what a pass makes of the nodes below it. -/
theorem inside (hg : g.Keeps) {label : Label} (hn : label.kind.isCommand = false) (h : KeepsShape g ns ms)
    {rest rest' : List Node} (hrest : KeepsShape g rest rest') :
    KeepsShape g (⟨label, ns⟩ :: rest) (⟨label, ms⟩ :: rest') := by
  have helement : IsElement g false ⟨label, ns⟩ → IsElement g true ⟨label, ms⟩ := by
    intro helement
    unfold IsElement at helement ⊢
    refine ⟨helement.1, ?_⟩
    have helement := helement.2
    cases hk : label.kind <;> rw [hk] at helement hn <;>
      first | exact helement.elim | exact absurd hn (by decide) | skip
    case text => exact ⟨helement.1, h.nil helement.2⟩
    case func =>
      have hrule : g.functionRule label.content ≠ .literal := fun hrule =>
        absurd ((hg.literal_function _).1 hrule) (by decide)
      exact ⟨helement.1, h.clauses _ _ _ hrule helement.2⟩
    case ref => exact ⟨helement.1, h.call helement.2⟩
  refine ⟨fun prev prev' hflow => ?_, fun rule param hosts hrule hclauses => ?_, fun hcall => ?_,
    fun hnil => absurd hnil (List.cons_ne_nil _ _), fun label' hl hleaf => ?_⟩
  · obtain ⟨⟨hk, he⟩, hflow⟩ := hflow.element
    exact isFlow_cons hk (helement he) (hrest.flow _ _ hflow)
  · obtain ⟨hk, hc, hl, value, hv, hmore⟩ | ⟨-, hm, -⟩ | ⟨hk, hv, hl, rfl, hr, hc, hcall⟩ |
      ⟨hk, hv, hl, hbody, hmore⟩ := hclauses.cases
    · unfold IsClauses
      simp only [Node.kind, hk]
      refine ⟨h.nil hc, hl, by rw [hv]; rfl, ?_⟩
      rw [hv]
      exact hrest.clauses _ _ _ hrule hmore
    · exact absurd hm (by decide)
    · rw [hrest.nil hr]
      exact isClauses_host hk hv hl hc (h.call hcall)
    · refine isClauses_body_cons rfl hk hv hl ?_ (hrest.clauses _ _ _ hrule hmore)
      unfold IsBody at hbody ⊢
      cases rule with
      | box => exact ⟨hbody.1, hbody.2.1, h.flow _ _ hbody.2.2⟩
      | literal => exact absurd rfl hrule
      | code => exact ⟨hbody.1, h.nil hbody.2⟩
      | config space =>
        obtain ⟨value, hchildren⟩ := children_readSettings (hbody.2.1 ▸ hbody.2.2)
        have hms := h.dictionary _ rfl (hbody.2.1.trans hchildren)
        rw [hms]
        exact hbody
      | reject | shout => exact hbody.elim
  · unfold IsCall at hcall ⊢
    exact ⟨hcall.1, hrest.nil hcall.2.1, helement hcall.2.2⟩
  · obtain ⟨hnode, hr⟩ := List.cons.inj hleaf
    obtain ⟨rfl, rfl⟩ := Node.mk.inj hnode
    rw [h.nil rfl, hrest.nil hr, hr]

end KeepsShape

/-- A pass of the standard rules keeps the shape of nodes. -/
theorem keepsShape_runNodes (hg : g.Keeps) (ns : List Node) (s : ExecState)
    (hns : MeetsAll (IsElement g false) ns) (hs : s.Speaks) :
    (runNodes Registry.standard.execution ns s).state.Speaks ∧
      KeepsShape g ns (runNodes Registry.standard.execution ns s).nodes := by
  revert hns hs
  refine runNodes_induct Registry.standard.execution
    (motive := fun ns s w => MeetsAll (IsElement g false) ns → s.Speaks →
      w.state.Speaks ∧ KeepsShape g ns w.nodes)
    ?nil ?marker ?failed ?halted ?executed ?inside ?ended ns s
  case nil => exact fun _ _ hs => ⟨hs, .refl []⟩
  case marker =>
    intro n rest s hm ih hns hs
    obtain ⟨hspeaks, hshape⟩ := ih (hns.2.afterMarker n) hs
    exact ⟨hspeaks, hshape.marker hm⟩
  case failed =>
    intro n rest s e hn hm hr hns hs
    refine ⟨hs, .of_flow hn fun prev prev' hflow => ?_⟩
    obtain ⟨⟨hk, helement⟩, hrest⟩ := hflow.element
    exact IsFlow.marked (isFlow_cons hk helement (isFlow_stripMarkers hrest))
  case halted =>
    intro n rest s m t hn hm hr ht hns hs
    have helement := isElement_runStep (hns.1.command hn) hr
    have hspeaks := speaks_runStep hg (hns.1.command hn) hs hr
    refine ⟨hspeaks.last, .of_flow hn fun prev prev' hflow => ?_⟩
    have hk : m.kind ≠ .sep := by
      rw [Node.kind, (plain_of_runStep hn hr).1]
      exact hflow.element.1.1
    exact isFlow_cons hk helement (isFlow_behindHalt hg hspeaks.warnings hflow.element.2 _)
  case executed =>
    intro n rest s m t hn hm hr ht ih hns hs
    have helement := isElement_runStep (hns.1.command hn) hr
    have hspeaks := speaks_runStep hg (hns.1.command hn) hs hr
    obtain ⟨hmore, hshape⟩ := ih hns.2 hspeaks.next
    refine ⟨hmore, .of_flow hn fun prev prev' hflow => ?_⟩
    have hk : m.kind ≠ .sep := by
      rw [Node.kind, (plain_of_runStep hn hr).1]
      exact hflow.element.1.1
    exact isFlow_cons hk helement (isFlow_warningMarkers hg hspeaks.warnings
      (fun prev => hshape.flow _ prev hflow.element.2) _)
  case inside =>
    intro label children rest s w hn hw ho ih ihrest hns hs
    obtain ⟨hspeaks, hshape⟩ := ih (hns.1.inside hn).2 hs
    obtain ⟨hmore, hrest⟩ := ihrest hns.2 hspeaks
    exact ⟨hmore, hshape.inside hg hn hrest⟩
  case ended =>
    intro label children rest s w hn hw ho ih hns hs
    obtain ⟨hspeaks, hshape⟩ := ih (hns.1.inside hn).2 hs
    exact ⟨hspeaks, hshape.inside hg hn (.refl rest)⟩

/-- A document that has been read has the shape of documents after a pass of the standard rules. -/
theorem isFlow_exec (hg : g.Keeps) {document : Node} (h : IsFlow g false true none document.children)
    (ctx : Context) :
    IsFlow g true true none (exec Registry.standard.execution document ctx).document.children := by
  obtain ⟨label, children⟩ := document
  obtain ⟨-, hshape⟩ := keepsShape_runNodes hg children (.ofContext ctx) (meetsAll_of_isFlow hg h)
    (.ofContext ctx)
  exact hshape.flow _ _ h

end Evomark
