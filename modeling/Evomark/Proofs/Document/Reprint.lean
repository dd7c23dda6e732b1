import Evomark.Proofs.Markup.ReadBack
/-!
# Printing what has been read back

What is read back from the text of a document has the shape of a document that has been read
(`lacks_rereadFlow`) and the same text (`flowText_reread`), so a text that can be read back is printed
as it is (`printWith_parse_printWith`).
-/

namespace Evomark.Node

open Markup

/-! ## Places are not printed -/

theorem edgeBehind_unplaced (n : Node) : n.unplaced.edgeBehind = n.edgeBehind := by
  cases n
  rfl

theorem gapText_unplaced (indent : List Char) (prev : Option Kind) (edge : Edge) (n : Node) :
    gapText indent prev edge n.unplaced = gapText indent prev edge n := by
  cases n
  rfl

theorem insideText_congr {label : Label} {flow flow' : Nat → Edge → List Char}
    (h : ∀ level edge, flow level edge = flow' level edge) (unit : List Char) (level : Nat) :
    insideText unit level label flow = insideText unit level label flow' := by
  have h : flow = flow' := funext fun level => funext fun edge => h level edge
  rw [h]

mutual

theorem nodeText_unplaced (unit : List Char) : ∀ (n : Node) (level : Nat),
    nodeText unit level n.unplaced = nodeText unit level n
  | ⟨label, children⟩, level => by
    have hclauses := clausesText_unplaced unit children level
    have hcall := callText_unplaced unit children level
    have hinside : insideText unit level label.unplaced
          (fun level edge => flowText unit level none edge (unplacedAll children)) =
        insideText unit level label (fun level edge => flowText unit level none edge children) :=
      insideText_congr (fun level edge => flowText_unplaced unit children level none edge) unit level
    rw [unplaced, nodeText, nodeText]
    simp only [hclauses, hcall, hinside]
    rfl

theorem flowText_unplaced (unit : List Char) : ∀ (ns : List Node) (level : Nat) (prev : Option Kind)
    (edge : Edge), flowText unit level prev edge (unplacedAll ns) = flowText unit level prev edge ns
  | [], _, _, _ => rfl
  | n :: rest, level, prev, edge => by
    have hcount : n.unplaced.label.sepCount = n.label.sepCount := by
      cases n
      rfl
    rw [unplacedAll, flowText, flowText, kind_unplaced, gapText_unplaced, edgeBehind_unplaced, hcount,
      nodeText_unplaced unit n level, flowText_unplaced unit rest, flowText_unplaced unit rest,
      flowText_unplaced unit rest]

theorem clausesText_unplaced (unit : List Char) : ∀ (ns : List Node) (level : Nat),
    clausesText unit level (unplacedAll ns) = clausesText unit level ns
  | [], _ => rfl
  | n :: rest, level => by
    rw [unplacedAll, clausesText, clausesText, kind_unplaced, nodeText_unplaced unit n level,
      clausesText_unplaced unit rest]

theorem callText_unplaced (unit : List Char) : ∀ (ns : List Node) (level : Nat),
    callText unit level (unplacedAll ns) = callText unit level ns
  | [], _ => rfl
  | n :: rest, level => by
    rw [unplacedAll, callText, callText, nodeText_unplaced unit n level]

end

/-! ## No warnings are read back -/

mutual

theorem lacks_unplaced (kind : Kind) : ∀ n : Node, n.unplaced.Lacks kind ↔ n.Lacks kind
  | ⟨label, children⟩ => by
    rw [unplaced, Lacks, Lacks, lacksAll_unplaced kind children]
    rfl

theorem lacksAll_unplaced (kind : Kind) : ∀ ns : List Node,
    LacksAll kind (unplacedAll ns) ↔ LacksAll kind ns
  | [] => Iff.rfl
  | n :: rest => by
    rw [unplacedAll, LacksAll, LacksAll, lacks_unplaced kind n, lacksAll_unplaced kind rest]

end

section

variable {g : Grammar} {marked : Bool}

theorem lacksAll_append {kind : Kind} {ns ms : List Node} (h : LacksAll kind ns) (h' : LacksAll kind ms) :
    LacksAll kind (ns ++ ms) := by
  rw [lacksAll_iff] at h h' ⊢
  exact List.forall_mem_append.2 ⟨h, h'⟩

theorem lacksAll_gapNodes (count : Nat) : LacksAll .warning (gapNodes count) := by
  unfold gapNodes
  split
  · exact ⟨⟨Kind.noConfusion, trivial⟩, trivial⟩
  · trivial

theorem lacksAll_settle {atEnd : Nat → List Node} (he : ∀ count, LacksAll .warning (atEnd count))
    {items : List Node} {prev : Option Kind} (h : IsFlow g marked false prev items) (count : Nat) :
    LacksAll .warning (settle atEnd count items) := by
  induction items generalizing prev count with
  | nil => exact he count
  | cons n rest ih =>
    obtain ⟨hflow, ⟨hb, -⟩ | ⟨hb, -⟩ | ⟨-, -, -, hitem⟩⟩ := h.cases
    · exact absurd hb (by decide)
    · exact absurd hb (by decide)
    · rw [settle]
      split
      · exact ih hflow _
      · refine lacksAll_append (lacksAll_gapNodes count) ⟨⟨fun hw => ?_, trivial⟩, ih hflow _⟩
        have hw : n.kind = .warning := hw
        rw [hw] at hitem
        exact hitem

theorem lacksAll_rereadItems {layout : Option Layout} {items : List Node} {prev : Option Kind}
    (h : IsFlow g marked false prev items) : LacksAll .warning (rereadItems layout items) := by
  unfold rereadItems
  split
  · exact lacksAll_settle (fun _ => show LacksAll .warning [] from trivial) h 1
  · exact lacksAll_settle lacksAll_gapNodes h 0

/-- What is read back of a node is no warning if the node is none. -/
theorem lacks_reread_of_kind {n : Node} (hk : n.kind ≠ .warning)
    (h : LacksAll .warning n.reread.children) : n.reread.Lacks .warning := by
  have hkind := kind_reread n
  cases hn : n.reread with
  | mk label children =>
    rw [hn] at hkind h
    exact ⟨fun hw => hk (hkind.symm.trans hw), h⟩

mutual

theorem lacks_reread (hg : g.Keeps) : ∀ {n : Node}, IsElement g marked n → n.reread.Lacks .warning
  | ⟨label, children⟩, h => by
    refine lacks_reread_of_kind (h.kind_ne (by decide)) ?_
    rw [children_reread_of_kind ⟨h.kind_ne (by decide), h.kind_ne (by decide)⟩]
    unfold IsElement at h
    cases hkind : label.kind <;> rw [hkind] at h <;> try exact h.2.elim
    case text => rw [h.2.2]; exact trivial
    case func => exact lacks_rereadClauses hg rfl (hg.literal_function _) (fun _ => rfl) h.2.2
    case cmd => exact lacks_rereadClauses hg rfl (hg.literal_command _) (fun h => absurd h (by decide)) h.2.2
    case ref => exact lacks_rereadCall hg h.2.2
    case varUse =>
      rw [rereadAll_results fun n hn => (h.2.2 n hn).2]
      exact trivial
    case varAssign => exact lacks_rereadCall hg h.2.2

theorem lacks_rereadCall (hg : g.Keeps) {kind : Kind} : ∀ {ns : List Node}, IsCall g marked kind ns →
    LacksAll .warning (rereadAll ns)
  | n :: rest, h => by
    unfold IsCall at h
    obtain ⟨-, rfl, h⟩ := h
    rw [rereadAll_element h]
    exact ⟨lacks_reread hg h, trivial⟩

theorem lacks_rereadClauses (hg : g.Keeps) {rule : BodyRule} {bodyKind : Kind} (hb : bodyKind.isBody = true)
    (hrule : rule = .literal ↔ bodyKind = .body) {param : Option Json} {hosts : Bool}
    (hhost : hosts = true → bodyKind = .funcBody) :
    ∀ {ns : List Node}, IsClauses g marked rule bodyKind param hosts ns → LacksAll .warning (rereadAll ns)
  | [], _ => trivial
  | ⟨label, children⟩ :: rest, h => by
    obtain ⟨hk, rfl, hl, value, hv, hrest⟩ | ⟨hk, -, -, hrest⟩ | ⟨hk, hv, hl, hh, rfl, hc, hcall⟩ |
      ⟨hk, hv, hl, hbody, hrest⟩ := h.cases
    · rw [rereadAll_clause (by simp [hk]), reread_param hk hl hv]
      exact ⟨⟨Kind.noConfusion, trivial⟩, lacks_rereadClauses hg hb hrule hhost hrest⟩
    · rw [rereadAll, if_pos (.inr hk)]
      exact lacks_rereadClauses hg hb hrule hhost hrest
    · have hkind : label.kind = .funcBody := hk.trans (hhost hh)
      rw [rereadAll_clause (by simp [hkind])]
      refine ⟨lacks_reread_of_kind (by simp [Node.kind, hkind]) ?_, trivial⟩
      rw [children_reread_of_kind (by simp [hkind])]
      exact lacks_rereadCall hg hcall
    · have hkbody : label.kind.isBody = true := by rw [hk]; exact hb
      have hkinds : (label.kind ≠ .sep ∧ label.kind ≠ .literal) ∧
          label.kind ≠ .warning ∧ label.kind ≠ .funcParam := by
        refine ⟨⟨?_, ?_⟩, ?_, ?_⟩ <;> (intro h; rw [h] at hkbody; exact absurd hkbody (by decide))
      rw [rereadAll_clause hkinds.1]
      refine ⟨lacks_reread_of_kind hkinds.2.1 ?_,
        lacks_rereadClauses hg hb hrule (fun h => absurd h (by decide)) hrest⟩
      unfold IsBody at hbody
      have hchildren : rule ≠ .literal → (reread ⟨label, children⟩).children = rereadAll children :=
        fun hr => children_reread_of_kind ⟨hkinds.2.2, fun h => hr (hrule.2 (hk.symm.trans h))⟩
      cases rule with
      | box =>
        rw [hchildren (by simp)]
        exact lacks_rereadFlow hg hbody.2.2
      | literal =>
        rw [reread, show label.kind = .body from hk.trans (hrule.1 rfl)]
        exact lacksAll_rereadItems hbody.2.2
      | code =>
        rw [hchildren (by simp), hbody.2]
        exact trivial
      | config space =>
        obtain ⟨value, hvalue⟩ := children_readSettings (hbody.2.1 ▸ hbody.2.2)
        rw [hchildren (by simp), hbody.2.1, hvalue]
        exact ⟨⟨Kind.noConfusion, trivial⟩, trivial⟩
      | reject | shout => exact hbody.elim

theorem lacks_rereadFlow (hg : g.Keeps) : ∀ {ns : List Node} {prev : Option Kind}, IsFlow g marked true prev ns →
    LacksAll .warning (rereadAll ns)
  | [], _, _ => trivial
  | n :: rest, prev, h => by
    obtain ⟨hflow, ⟨-, hk, -⟩ | ⟨-, -, helement⟩ | ⟨hb, -⟩⟩ := h.cases
    · rw [rereadAll_sep hk]
      exact lacks_rereadFlow hg hflow
    · rw [rereadAll_element helement]
      exact ⟨lacks_reread hg helement, lacks_rereadFlow hg hflow⟩
    · exact absurd hb (by decide)

end

end

/-! ## Literal bodies -/

section

variable {g : Grammar} {unit : List Char} {level : Nat}

theorem edgeBehind_ne_begun (n : Node) : n.edgeBehind ≠ .begun := by
  unfold edgeBehind
  split <;> first | (split <;> exact Edge.noConfusion) | exact Edge.noConfusion

/-- A node of a literal body that is no separator. -/
theorem nodeText_item {marked : Bool} {prev : Option Kind} {n : Node} {rest : List Node}
    (h : IsFlow g marked false prev (n :: rest)) (hk : n.kind ≠ .sep) (prev' : Option Kind) (edge : Edge)
    (more : List Node) :
    flowText unit level prev' edge (.leaf n.label.unplaced :: more) =
        edgeText (indentation unit level) edge ++
          (nodeText unit level n ++ flowText unit level (some n.kind) n.edgeBehind more) ∧
      flowText unit level prev' edge (n :: more) =
        edgeText (indentation unit level) edge ++
          (nodeText unit level n ++ flowText unit level (some n.kind) n.edgeBehind more) := by
  obtain ⟨-, ⟨hb, -⟩ | ⟨hb, -⟩ | ⟨-, hchildren, -, hitem⟩⟩ := h.cases
  · exact absurd hb (by decide)
  · exact absurd hb (by decide)
  have hkinds : n.kind ≠ .text ∧ n.kind ≠ .configDict := by
    cases hkind : n.kind <;> rw [hkind] at hitem <;> first | exact hitem.elim | simp
  have hleaf : Node.leaf n.label.unplaced = n.unplaced := by
    obtain ⟨label, children⟩ := n
    obtain rfl : children = [] := hchildren
    rfl
  have hgap : gapText (indentation unit level) prev' edge n = edgeText (indentation unit level) edge := by
    rw [gapText, if_neg fun h => hkinds.1 h.1, if_neg fun h => hkinds.1 h.1]
  have hflow : flowText unit level prev' edge (n :: more) = edgeText (indentation unit level) edge ++
      (nodeText unit level n ++ flowText unit level (some n.kind) n.edgeBehind more) := by
    rw [flowText_cons ⟨hk, hkinds.2⟩, hgap, List.append_assoc]
  refine ⟨?_, hflow⟩
  rw [hleaf, flowText_cons (by rw [kind_unplaced]; exact ⟨hk, hkinds.2⟩), gapText_unplaced, hgap,
    nodeText_unplaced, kind_unplaced, edgeBehind_unplaced, List.append_assoc]

theorem flowText_sepOf (prev : Option Kind) (edge : Edge) (count : Nat) (more : List Node) :
    flowText unit level prev edge (sepOf count :: more) =
      breaks edge count ++ flowText unit level (some .sep) .begun more := by
  have hcount : (sepOf count).label.sepCount = count := sepCount_of_value rfl
  rw [flowText, if_pos (show (sepOf count).kind = Kind.sep from rfl), hcount]

/-- Separators that stand together are written as the separator that is read from them. -/
theorem flowText_settle {marked : Bool} {prev : Option Kind} {items : List Node}
    (h : IsFlow g marked false prev items) {edge : Edge} (hedge : edge ≠ .begun) (prev' : Option Kind) :
    flowText unit level prev' edge (settle gapNodes 0 items) = flowText unit level prev' edge items ∧
      ∀ count, 2 ≤ count → flowText unit level prev' edge (settle gapNodes count items) =
        List.replicate count '\n' ++ flowText unit level (some .sep) .begun items := by
  induction items generalizing prev prev' edge with
  | nil =>
    refine ⟨rfl, fun count hcount => ?_⟩
    rw [settle, gapNodes, if_pos hcount, flowText_sepOf, breaks, if_neg hedge]
  | cons n rest ih =>
    by_cases hk : n.kind = .sep
    · obtain ⟨hflow, ⟨hb, -⟩ | ⟨hb, -⟩ | ⟨-, -, -, hitem⟩⟩ := h.cases
      · exact absurd hb (by decide)
      · exact absurd hb (by decide)
      rw [hk] at hitem
      obtain ⟨-, count, hcount, hvalue⟩ := hitem
      have hsep := sepCount_of_value hvalue
      refine ⟨?_, fun k hle => ?_⟩
      · rw [settle, if_pos hk, widen, if_pos rfl, hsep, (ih hflow hedge prev').2 count hcount, flowText,
          if_pos hk, hsep, breaks, if_neg hedge]
      · rw [settle, if_pos hk, widen, if_neg (by omega), (ih hflow hedge prev').2 (k + 1) (by omega), flowText,
          if_pos hk, breaks, if_pos rfl, List.replicate_succ', List.append_assoc]
        rfl
    · have hflow := h.cases.1
      have hbehind := edgeBehind_ne_begun n
      refine ⟨?_, fun k hle => ?_⟩
      · rw [settle, if_neg hk]
        show flowText unit level prev' edge (.leaf n.label.unplaced :: settle gapNodes 0 rest) = _
        rw [(nodeText_item h hk prev' edge _).1, (ih hflow hbehind _).1, ← (nodeText_item h hk prev' edge rest).2]
      · rw [settle, if_neg hk, gapNodes, if_pos hle]
        show flowText unit level prev' edge (sepOf k :: .leaf n.label.unplaced :: settle gapNodes 0 rest) = _
        rw [flowText_sepOf, (nodeText_item h hk _ _ _).1, (ih hflow hbehind _).1,
          ← (nodeText_item h hk (some .sep) .begun rest).2, breaks, if_neg hedge]

theorem isBlankText_flowText_nil (hu : ∀ c ∈ unit, Text.isBlank c = true) (prev : Option Kind) (edge : Edge) :
    Text.IsBlankText (flowText unit level prev edge []) := by
  rw [flowText]
  split
  · exact fun c hc => Text.isWhite_of_isBlank (isBlank_of_mem_indentation hu level c hc)
  · exact fun c hc => absurd hc (by simp)

theorem isBlankText_breaks (edge : Edge) (count : Nat) : Text.IsBlankText (breaks edge count) := by
  intro c hc
  rw [List.eq_of_mem_replicate hc]
  rfl

theorem isBlankText_append {ws ws' : List Char} (h : Text.IsBlankText ws) (h' : Text.IsBlankText ws') :
    Text.IsBlankText (ws ++ ws') := List.forall_mem_append.2 ⟨h, h'⟩

/-- Separators alone are written as white space. -/
theorem isBlankText_flowText_seps (hu : ∀ c ∈ unit, Text.isBlank c = true) {ns : List Node}
    (h : ∀ n ∈ ns, n.kind = .sep) (prev : Option Kind) (edge : Edge) :
    Text.IsBlankText (flowText unit level prev edge ns) := by
  induction ns generalizing prev edge with
  | nil => exact isBlankText_flowText_nil hu prev edge
  | cons n rest ih =>
    rw [List.forall_mem_cons] at h
    rw [flowText, if_pos h.1]
    exact isBlankText_append (isBlankText_breaks _ _) (ih h.2 _ _)

/-- The gap at the end of a body is trimmed. -/
theorem trimEnd_settle (hu : ∀ c ∈ unit, Text.isBlank c = true) {marked : Bool} {prev : Option Kind}
    {items : List Node} (h : IsFlow g marked false prev items) (edge : Edge) (prev' : Option Kind)
    (count : Nat) (front : List Char) :
    Text.trimEnd (front ++ flowText unit level prev' edge (settle (fun _ => []) count items)) =
      Text.trimEnd (front ++ flowText unit level prev' edge (settle gapNodes count items)) := by
  induction items generalizing prev prev' edge count front with
  | nil =>
    have hgap : ∀ n ∈ gapNodes count, n.kind = .sep := by
      unfold gapNodes
      split
      · exact List.forall_mem_singleton.2 rfl
      · simp
    rw [settle, settle, Text.trimEnd_append_blank (isBlankText_flowText_nil hu prev' edge),
      Text.trimEnd_append_blank (isBlankText_flowText_seps hu hgap prev' edge)]
  | cons n rest ih =>
    have hflow := h.cases.1
    by_cases hk : n.kind = .sep
    · rw [settle, if_pos hk, settle, if_pos hk]
      exact ih hflow _ _ _ _
    · have hcons (front : List Char) (edge : Edge) (prev' : Option Kind) :
          Text.trimEnd (front ++ flowText unit level prev' edge
              (.leaf n.label.unplaced :: settle (fun _ => []) 0 rest)) =
            Text.trimEnd (front ++ flowText unit level prev' edge
              (.leaf n.label.unplaced :: settle gapNodes 0 rest)) := by
        rw [(nodeText_item h hk prev' edge _).1, (nodeText_item h hk prev' edge _).1]
        simp only [← List.append_assoc]
        exact ih hflow _ _ _ _
      rw [settle, if_neg hk, settle, if_neg hk]
      unfold gapNodes
      split
      · simp only [List.singleton_append, flowText_sepOf, ← List.append_assoc]
        exact hcons _ _ _
      · exact hcons _ _ _

/-- On lines of its own a literal body is written as it is read, if it starts with at most one
separator. -/
theorem trimEnd_rereadItems (hu : ∀ c ∈ unit, Text.isBlank c = true) {marked : Bool}
    {items : List Node} (h : IsFlow g marked false none items)
    (hlead : leadsOnce (some .block) items = true) :
    Text.trimEnd ('\n' :: flowText unit level none .begun (rereadItems (some .block) items)) =
      Text.trimEnd ('\n' :: flowText unit level none .begun items) := by
  rw [rereadItems, if_pos rfl]
  show Text.trimEnd (['\n'] ++ _) = Text.trimEnd (['\n'] ++ _)
  by_cases hseps : ∀ n ∈ items, n.kind = .sep
  · have hsettle : ∀ count, settle (fun _ => []) count items = [] := by
      clear h hlead
      induction items with
      | nil => exact fun count => rfl
      | cons n rest ih =>
        rw [List.forall_mem_cons] at hseps
        intro count
        rw [settle, if_pos hseps.1, ih hseps.2]
    rw [hsettle, Text.trimEnd_append_blank (isBlankText_flowText_nil hu none .begun),
      Text.trimEnd_append_blank (isBlankText_flowText_seps hu hseps none .begun)]
  · rw [trimEnd_settle hu h]
    refine congrArg (fun text => Text.trimEnd (['\n'] ++ text)) ?_
    cases items with
    | nil => exact absurd (by simp) hseps
    | cons n rest =>
      have hflow := h.cases.1
      have hitem {m : Node} {more : List Node} {prev : Option Kind} (h : IsFlow g marked false prev (m :: more))
          (hk : m.kind ≠ .sep) (prev' : Option Kind) :
          flowText unit level prev' .begun (.leaf m.label.unplaced :: settle gapNodes 0 more) =
            flowText unit level prev' .begun (m :: more) := by
        rw [(nodeText_item h hk _ _ _).1, (flowText_settle h.cases.1 (edgeBehind_ne_begun m) _).1,
          ← (nodeText_item h hk prev' .begun more).2]
      by_cases hk : n.kind = .sep
      · cases rest with
        | nil => exact absurd (fun x hx => by rw [List.mem_singleton.1 hx]; exact hk) hseps
        | cons m more =>
          have hm : m.kind ≠ .sep := by
            intro hm
            have hk' : (n.kind == .sep) = true := by simpa using hk
            have hm' : (m.kind == .sep) = true := by simpa using hm
            have hlength : 1 < ((n :: m :: more).takeWhile (·.kind == .sep)).length := by
              simp [List.takeWhile, hk', hm']
            have hdrop : ¬ ((n :: m :: more).dropWhile (·.kind == .sep)).isEmpty = true := by
              rw [List.isEmpty_iff, List.dropWhile_eq_nil_iff]
              exact fun hall => hseps fun x hx => by simpa using hall x hx
            simp only [leadsOnce, Bool.or_eq_true, decide_eq_true_eq] at hlead
            rcases hlead with (hlead | hlead) | hlead
            · exact absurd hlead (by decide)
            · exact hdrop hlead
            · omega
          have hsep : flowText unit level none .begun (n :: m :: more) =
              breaks .begun n.label.sepCount ++ flowText unit level (some .sep) .begun (m :: more) := by
            rw [flowText, if_pos hk]
          rw [settle, if_pos hk, settle, if_neg hm, widen, if_neg (by decide), gapNodes, if_pos (by decide), hsep]
          show flowText unit level none .begun (sepOf 2 :: .leaf m.label.unplaced :: settle gapNodes 0 more) = _
          rw [flowText_sepOf, hitem hflow hm, breaks, breaks, if_pos rfl, if_pos rfl]
      · rw [settle, if_neg hk, gapNodes, if_neg (by decide)]
        exact hitem h hk none

theorem leadsOnce_of_isReadable {label : Label} {children : List Node} (hk : label.kind = .body)
    (h : isReadable unit level ⟨label, children⟩ = true) : leadsOnce label.layout children = true := by
  unfold isReadable at h
  rw [hk] at h
  simp only [bne_self_eq_false, Bool.false_or, Bool.and_eq_true] at h
  exact h.1.2

theorem reread_of_isBody {label : Label} {children : List Node} (hk : label.kind.isBody = true) :
    reread ⟨label, children⟩ = ⟨label.unplaced, (reread ⟨label, children⟩).children⟩ := by
  rw [reread]
  cases hkind : label.kind <;> first | rfl | (rw [hkind] at hk; exact absurd hk (by decide))

/-- The inside of a literal body is written as it is read. -/
theorem insideOf_rereadItems (hu : ∀ c ∈ unit, Text.isBlank c = true) {marked : Bool} {label : Label}
    {items : List Node} (hc : label.content = "") (h : IsFlow g marked false none items)
    (hlead : leadsOnce label.layout items = true) :
    insideOf unit level label.unplaced (rereadItems label.layout items) = insideOf unit level label items := by
  have hc' : label.unplaced.content = "" := hc
  rw [insideOf, insideOf, insideText_of_empty hc', insideText_of_empty hc]
  have hopen {edge : Edge} (hedge : edge ≠ .begun) (hl : label.layout ≠ some .block) :
      flowText unit level none edge (rereadItems label.layout items) =
        flowText unit level none edge items := by
    rw [rereadItems, if_neg hl]
    exact (flowText_settle h hedge none).1
  rw [show label.unplaced.layout = label.layout from rfl]
  cases hl : label.layout with
  | none => rw [hl] at hopen; exact hopen (by decide) (by simp)
  | some layout =>
    rw [hl] at hopen hlead
    cases layout with
    | block =>
      have htrim := @trimEnd_rereadItems g unit (level + 1) hu marked items h hlead
      exact congrArg (· ++ '\n' :: indentation unit level) htrim
    | code => exact hopen (by decide) (by simp)
    | inline | directChild => exact hopen (by decide) (by simp)

/-- The inside of a box is written as it is read, if its nodes are. -/
theorem insideOf_rereadAll {label : Label} {children : List Node} (hc : label.content = "")
    (h : ∀ edge, flowText unit (levelInside label.layout level) none edge (rereadAll children) =
      flowText unit (levelInside label.layout level) none edge children) :
    insideOf unit level label.unplaced (rereadAll children) = insideOf unit level label children := by
  have hc' : label.unplaced.content = "" := hc
  rw [insideOf, insideOf, insideText_of_empty hc', insideText_of_empty hc]
  rw [show label.unplaced.layout = label.layout from rfl]
  unfold levelInside at h
  cases hl : label.layout with
  | none => rw [hl] at h; exact h .opened
  | some layout =>
    rw [hl] at h
    cases layout with
    | block => exact congrArg (fun text => Text.trimEnd ('\n' :: text) ++ '\n' :: indentation unit level) (h .begun)
    | code => exact h .filled
    | inline | directChild => exact h .opened

theorem insideOf_reread (hu : ∀ c ∈ unit, Text.isBlank c = true) {rule : BodyRule} {param : Option Json}
    {label : Label} {children : List Node} (hbody : IsBody g false rule param ⟨label, children⟩)
    (hk : label.kind.isBody = true) (hrule : rule = .literal ↔ label.kind = .body)
    (hr : isReadable unit level ⟨label, children⟩ = true)
    (h : IsFlow g false true none children → ∀ edge,
      flowText unit (levelInside label.layout level) none edge (rereadAll children) =
        flowText unit (levelInside label.layout level) none edge children) :
    insideOf unit level label.unplaced (reread ⟨label, children⟩).children =
      insideOf unit level label children := by
  have hchildren : rule ≠ .literal → (reread ⟨label, children⟩).children = rereadAll children := by
    intro hr
    refine children_reread_of_kind ⟨fun h => ?_, fun h => hr (hrule.2 h)⟩
    rw [h] at hk
    exact absurd hk (by decide)
  unfold IsBody at hbody
  cases rule with
  | box =>
    rw [hchildren (by simp)]
    exact insideOf_rereadAll hbody.2.1 (h hbody.2.2)
  | literal =>
    have hkind := hrule.1 rfl
    rw [reread, hkind]
    exact insideOf_rereadItems hu hbody.2.1 hbody.2.2 (leadsOnce_of_isReadable hkind hr)
  | code =>
    rw [hchildren (by simp), hbody.2]
    rfl
  | config space =>
    obtain ⟨value, hvalue⟩ := children_readSettings (hbody.2.1 ▸ hbody.2.2)
    rw [hchildren (by simp), hbody.2.1, hvalue]
    rfl
  | reject | shout => exact hbody.elim

end

/-! ## Documents -/

section

variable {g : Grammar} {unit : List Char}

theorem paramText_reread {label : Label} {value : Json} (hv : label.value = some value)
    (h : keepsValue label = true) : paramText (rereadParam label) = paramText label := by
  have hagain := value_rereadParam hv
  simp only [keepsValue, Bool.and_eq_true, beq_iff_eq, hagain, hv, Option.map_some] at h
  rw [paramText_of_value hagain, paramText_of_value hv]
  exact Option.some.inj h.1

theorem gapText_reread {n : Node} (h : IsElement g false n) (indent : List Char) (prev : Option Kind)
    (edge : Edge) : gapText indent prev edge n.reread = gapText indent prev edge n ∧
      n.reread.edgeBehind = n.edgeBehind := by
  by_cases hk : n.kind = .text
  · rw [reread_text h hk]
    obtain ⟨label, children⟩ := n
    have hk : label.kind = .text := hk
    refine ⟨?_, ?_⟩
    · simp only [gapText, Node.leaf, Node.kind, Node.content, hk]
    · rw [edgeBehind_of_run (.inl rfl),
        edgeBehind_of_run (.inl (show Node.kind ⟨label, children⟩ = .text from hk))]
      rfl
  · have hl : n.kind ≠ .literal := h.kind_ne (by decide)
    have hk' : n.reread.kind ≠ .text := by rwa [kind_reread]
    refine ⟨?_, ?_⟩
    · rw [gapText, gapText, if_neg fun h => hk' h.1, if_neg fun h => hk' h.1, if_neg fun h => hk h.1,
        if_neg fun h => hk h.1]
    · rw [edgeBehind_of_call ⟨hk, hl⟩, edgeBehind_of_call ⟨hk', by rwa [kind_reread]⟩]

/-- Clauses are printed alike where the first of them are and the others are. -/
theorem clausesText_congr {level : Nat} {n m : Node} {ns ms : List Node} (hk : n.kind = m.kind)
    (hn : nodeText unit level n = nodeText unit level m)
    (hns : clausesText unit level ns = clausesText unit level ms) :
    clausesText unit level (n :: ns) = clausesText unit level (m :: ms) := by
  rw [clausesText, clausesText, hk, hn, hns]

mutual

/-- What is read back of a node has the text of the node. -/
theorem nodeText_reread (hu : ∀ c ∈ unit, Text.isBlank c = true) (hg : g.Keeps) (level : Nat) :
    ∀ {n : Node}, IsElement g false n → n.isReadable unit level = true →
      nodeText unit level n.reread = nodeText unit level n
  | ⟨label, children⟩, h, hr => by
    have helement := h
    unfold IsElement at h
    cases hk : label.kind <;> rw [hk] at h <;> try exact h.2.elim
    case text =>
      have hk' : (Node.mk label children).kind = .text := hk
      rw [reread_text helement hk', nodeText_of_run unit level (.inl hk'), nodeText_of_run unit level (.inl rfl)]
      rfl
    all_goals rw [reread, hk, nodeText, nodeText, hk, show label.unplaced.kind = _ from hk]
    case func =>
      have hreadable := isReadable_children (by simp [hk, Kind.isBody]) hr
      have hclauses := clausesText_reread hu hg level rfl (hg.literal_function _) (fun _ => rfl) h.2.2 hreadable
      exact congrArg ('#' :: label.content.toList ++ ·) hclauses
    case cmd =>
      have hreadable := isReadable_children (by simp [hk, Kind.isBody]) hr
      have hclauses := clausesText_reread hu hg level rfl (hg.literal_command _)
        (fun h => absurd h (by decide)) h.2.2 hreadable
      exact congrArg ('$' :: label.content.toList ++ ·) hclauses
    case ref =>
      have hreadable := isReadable_children (by simp [hk, Kind.isBody]) hr
      exact congrArg ('@' :: label.content.toList ++ ['='] ++ ·) (callText_reread hu hg level h.2.2 hreadable)
    case varAssign =>
      have hreadable := isReadable_children (by simp [hk, Kind.isBody]) hr
      exact congrArg ('%' :: label.content.toList ++ [' ', '=', ' '] ++ ·)
        (callText_reread hu hg level h.2.2 hreadable)
    case varUse => rfl

theorem callText_reread (hu : ∀ c ∈ unit, Text.isBlank c = true) (hg : g.Keeps) (level : Nat) {kind : Kind} :
    ∀ {ns : List Node}, IsCall g false kind ns → areReadable unit level ns = true →
      callText unit level (rereadAll ns) = callText unit level ns
  | n :: rest, h, hr => by
    unfold IsCall at h
    obtain ⟨-, rfl, h⟩ := h
    rw [areReadable, Bool.and_eq_true] at hr
    rw [rereadAll_element h, callText, callText]
    exact nodeText_reread hu hg level h hr.1

theorem clausesText_reread (hu : ∀ c ∈ unit, Text.isBlank c = true) (hg : g.Keeps) (level : Nat)
    {rule : BodyRule} {bodyKind : Kind} (hb : bodyKind.isBody = true)
    (hrule : rule = .literal ↔ bodyKind = .body) {param : Option Json} {hosts : Bool}
    (hhost : hosts = true → bodyKind = .funcBody) :
    ∀ {ns : List Node}, IsClauses g false rule bodyKind param hosts ns → areReadable unit level ns = true →
      clausesText unit level (rereadAll ns) = clausesText unit level ns
  | [], _, _ => rfl
  | ⟨label, children⟩ :: rest, h, hr => by
    rw [areReadable, Bool.and_eq_true] at hr
    obtain ⟨hk, rfl, hl, value, hv, hrest⟩ | ⟨-, hm, -⟩ | ⟨hk, hv, hl, hh, rfl, hc, hcall⟩ |
      ⟨hk, hv, hl, hbody, hrest⟩ := h.cases
    · have hkeeps : keepsValue label = true := by
        have hkeeps := hr.1
        rwa [isReadable, hk] at hkeeps
      have hreread : Node.reread ⟨label, []⟩ = ⟨rereadParam label, []⟩ := by
        rw [reread, hk]
        rfl
      rw [rereadAll_clause (by simp [hk]), hreread]
      refine clausesText_congr rfl ?_ (clausesText_reread hu hg level hb hrule hhost hrest hr.2)
      rw [nodeText_of_param _ _ _ (show (rereadParam label).kind = .funcParam from hk),
        nodeText_of_param _ _ _ hk, paramText_reread hv hkeeps]
    · exact absurd hm (by decide)
    · have hkind : label.kind = .funcBody := hk.trans (hhost hh)
      have hkbody : label.kind.isBody = true := by rw [hkind]; rfl
      have hlevel : levelInside label.layout level = level := by rw [hl]; rfl
      have hreadable := (closes_of_isReadable hkbody hr.1).2
      rw [hlevel] at hreadable
      have hchildren := @children_reread_of_kind label children (by simp [hkind])
      rw [rereadAll_clause (by simp [hkind]), reread_of_isBody hkbody, hchildren]
      refine clausesText_congr rfl ?_ rfl
      rw [nodeText_of_isBody _ _ _ (show label.unplaced.kind.isBody = true from hkbody),
        nodeText_of_isBody _ _ _ hkbody, if_pos (show label.unplaced.layout = _ from hl), if_pos hl]
      exact callText_reread hu hg level hcall hreadable
    · have hkbody : label.kind.isBody = true := by rw [hk]; exact hb
      have hkinds : label.kind ≠ .sep ∧ label.kind ≠ .literal :=
        ⟨ne_of_isBody hkbody rfl, ne_of_isBody hkbody rfl⟩
      have hreadable := (closes_of_isReadable hkbody hr.1).2
      have hinside := insideOf_reread hu hbody hkbody (hrule.trans (by rw [hk])) hr.1
        fun hflow edge => flowText_reread hu hg _ hflow hreadable none edge
      rw [rereadAll_clause hkinds, reread_of_isBody hkbody]
      refine clausesText_congr rfl ?_
        (clausesText_reread hu hg level hb hrule (fun h => absurd h (by decide)) hrest hr.2)
      rw [nodeText_of_isBody _ _ _ (show label.unplaced.kind.isBody = true from hkbody),
        nodeText_of_isBody _ _ _ hkbody, if_neg (show ¬label.unplaced.layout = _ from hl), if_neg hl]
      exact congrArg (delimited (label.layout.getD .inline)) hinside

theorem flowText_reread (hu : ∀ c ∈ unit, Text.isBlank c = true) (hg : g.Keeps) (level : Nat) :
    ∀ {ns : List Node} {prev : Option Kind}, IsFlow g false true prev ns → areReadable unit level ns = true →
      ∀ (prev' : Option Kind) (edge : Edge),
        flowText unit level prev' edge (rereadAll ns) = flowText unit level prev' edge ns
  | [], _, _, _, _, _ => rfl
  | n :: rest, prev, h, hr, prev', edge => by
    rw [areReadable, Bool.and_eq_true] at hr
    obtain ⟨hflow, ⟨-, -, hm, -⟩ | ⟨-, hk, helement⟩ | ⟨hb, -⟩⟩ := h.cases
    · exact absurd hm (by decide)
    · have hd : n.kind ≠ .configDict := helement.kind_ne (by decide)
      obtain ⟨hgap, hedge⟩ := gapText_reread helement (indentation unit level) prev' edge
      rw [rereadAll_element helement, flowText_cons (by rw [kind_reread]; exact ⟨hk, hd⟩),
        flowText_cons ⟨hk, hd⟩, hgap, hedge, kind_reread, nodeText_reread hu hg level helement hr.1,
        flowText_reread hu hg level hflow hr.2]
    · exact absurd hb (by decide)

end

section

variable {unit : String} {document : Node}

/-- Documents with the same nodes but for their places have the same text. -/
theorem printWith_congr (hu : ∀ c ∈ unit.toList, Text.isBlank c = true) {marked marked' : Bool}
    {document' : Node} (h : IsFlow g marked true none document.children)
    (h' : IsFlow g marked' true none document'.children)
    (he : unplacedAll document'.children = unplacedAll document.children) :
    document'.printWith unit = document.printWith unit := by
  rw [printWith_eq hu h', printWith_eq hu h, ← flowText_unplaced, he, flowText_unplaced]

/-- What is read from the text of a document that can be read back has no warnings. -/
theorem isFlow_parse_printWith (hu : ∀ c ∈ unit.toList, Text.isBlank c = true) (hg : g.Keeps)
    (initial : Table Json) {marked : Bool} (h : IsFlow g marked true none document.children)
    (hr : areReadable unit.toList 0 document.children = true) :
    IsFlow g false true none (parse g initial (document.printWith unit)).document.children := by
  obtain ⟨-, hread⟩ := parse_printWith hu hg initial h hr
  have hlacks := lacks_rereadFlow hg h
  rw [← hread, lacksAll_unplaced] at hlacks
  exact isFlow_parse hg initial (document.printWith unit)
    ((lacks_iff .warning 0 _).1 ⟨Kind.noConfusion, hlacks⟩)

/-- The text of a document that can be read back is printed as it is. -/
theorem printWith_parse_printWith (hu : ∀ c ∈ unit.toList, Text.isBlank c = true) (hg : g.Keeps)
    (initial : Table Json) (h : IsFlow g false true none document.children)
    (hr : areReadable unit.toList 0 document.children = true) :
    (parse g initial (document.printWith unit)).document.printWith unit = document.printWith unit := by
  obtain ⟨-, hread⟩ := parse_printWith hu hg initial h hr
  rw [printWith_eq hu (isFlow_parse_printWith hu hg initial h hr), ← flowText_unplaced, hread,
    flowText_reread hu hg 0 h hr, ← printWith_eq hu h]

end

end

end Evomark.Node
