import Evomark.Proofs.Markup.Parsed
import Evomark.Proofs.Markup.ReadFlow
/-!
# Reading a literal body

The text of a literal body is read as its nodes (`literalNodesFrom_flow`), but for separators: what
stands between two other nodes is one gap, read as one separator of all its line feeds.
-/

namespace Evomark.Markup

open Node

/-! ## Texts and gaps -/

theorem literalNodesFrom_char {run rest : List Char} {c : Char}
    (hs : ¬ Window.startsConstruct '%' (c :: rest) = true) (hb : c ≠ '\n') :
    literalNodesFrom run (c :: rest) = literalNodesFrom (c :: run) rest := by
  rw [literalNodesFrom, if_neg hs, if_neg hb]

/-- A text on one line is read into the run. -/
theorem literalNodesFrom_line {line rest run : List Char} (hb : '\n' ∉ line)
    (h : (line ++ rest.take 1).IsChain (Apart ['%'])) :
    literalNodesFrom run (line ++ rest) = literalNodesFrom (line.reverse ++ run) rest := by
  induction line generalizing run with
  | nil => rfl
  | cons c more ih =>
    rw [List.mem_cons, not_or] at hb
    rw [List.cons_append, List.isChain_cons] at h
    have hs : ¬ Window.startsConstruct '%' (c :: (more ++ rest)) = true := by
      refine not_startsConstruct (.head _) fun d hd => h.1 d ?_
      cases more with
      | nil => cases rest <;> simp_all
      | cons e more => simpa using hd
    rw [List.cons_append, literalNodesFrom_char hs (Ne.symm hb.1), ih hb.2 h.2]
    simp

/-- A gap that starts with a line feed. -/
theorem literalNodesFrom_gap (run : List Char) {gap rest : List Char} (hgap : ∀ c ∈ gap, isGapChar c = true)
    (hrest : ∀ c, rest.head? = some c → isGapChar c = false) :
    literalNodesFrom run ('\n' :: gap ++ rest) =
      if 2 ≤ ('\n' :: gap).count '\n' then
        literalOf run ++ sepOf (('\n' :: gap).count '\n') :: literalNodesFrom [] rest
      else literalNodesFrom (('\n' :: gap).reverse ++ run) rest := by
  have hs : ¬ Window.startsConstruct '%' ('\n' :: (gap ++ rest)) = true := by
    cases gap ++ rest <;> simp [Window.startsConstruct]
  obtain ⟨htake, hdrop⟩ := Text.takeWhile_append_stop hgap hrest
  rw [List.cons_append, literalNodesFrom, if_neg hs, if_pos rfl]
  simp only [htake, hdrop]

/-- A use of a variable. -/
theorem literalNodesFrom_use {run name rest : List Char} (hname : IsName (String.ofList name))
    (hrest : ∀ c, rest.head? = some c → Window.isNameChar c = false) :
    literalNodesFrom run ('%' :: name ++ rest) =
      literalOf run ++ useOf (String.ofList name) :: literalNodesFrom [] rest := by
  have hall := hname.all
  obtain ⟨c, more, hc, hstart, -⟩ := hname
  rw [String.toList_ofList] at hall hc
  have hs : Window.startsConstruct '%' ('%' :: (name ++ rest)) = true := by
    rw [hc]
    simp [Window.startsConstruct, hstart]
  obtain ⟨htake, hdrop⟩ := Text.takeWhile_append_stop hall hrest
  rw [List.cons_append, literalNodesFrom, if_pos hs, htake, hdrop]

theorem literalOf_append_gap {ws : List Char} (h : ∀ c ∈ ws, isGapChar c = true) (run : List Char) :
    literalOf (ws ++ run) = literalOf run := by
  unfold literalOf
  rw [List.reverse_append, Text.normalizeLines_append_blank]
  exact fun c hc => isWhite_of_isGapChar (h c (List.mem_reverse.1 hc))

theorem literalOf_gap {ws : List Char} (h : ∀ c ∈ ws, isGapChar c = true) : literalOf ws = [] := by
  rw [← List.append_nil ws, literalOf_append_gap h]
  rfl

/-- A text whose last neighbour starts no name. -/
theorem isChain_append_take {line rest : List Char} (h : line.IsChain (Apart ['%']))
    (hrest : ∀ d, rest.head? = some d → Window.isNameStart d = false) :
    (line ++ rest.take 1).IsChain (Apart ['%']) := by
  rw [List.isChain_append]
  refine ⟨h, by cases rest <;> simp, fun c _ d hd hcd => ?_⟩
  rw [Option.mem_def, List.head?_take, if_neg (by decide)] at hd
  rw [hrest d hd] at hcd
  exact absurd hcd.2 (by decide)

/-- A text of solid lines is read into the run. -/
theorem literalNodesFrom_joinLines {indent rest : List Char} (hi : ∀ c ∈ indent, Text.isBlank c = true)
    (hrest : ∀ d, rest.head? = some d → Window.isNameStart d = false) {ls : List (List Char)}
    (hne : ls ≠ []) (hl : ∀ line ∈ ls, Text.Solid line ∧ '\n' ∉ line)
    (hc : (Text.joinLines ls).IsChain (Apart ['%'])) (run : List Char) :
    literalNodesFrom run (Text.indented indent (Text.joinLines ls) ++ rest) =
      literalNodesFrom ((Text.indented indent (Text.joinLines ls)).reverse ++ run) rest := by
  induction ls generalizing run with
  | nil => exact absurd rfl hne
  | cons line more ih =>
    rw [List.forall_mem_cons] at hl
    cases more with
    | nil =>
      show literalNodesFrom run (Text.indented indent line ++ rest) =
        literalNodesFrom ((Text.indented indent line).reverse ++ run) rest
      rw [Text.indented_of_not_mem indent hl.1.2]
      exact literalNodesFrom_line hl.1.2 (isChain_append_take hc hrest)
    | cons next tail =>
      have hjoin : Text.joinLines (line :: next :: tail) = line ++ '\n' :: Text.joinLines (next :: tail) := by
        simp [Text.joinLines, Text.join]
      rw [hjoin] at hc ⊢
      obtain ⟨first, others, hfirst, hwhite⟩ :=
        (Text.solid_joinLines (List.cons_ne_nil next tail) fun l h => (hl.2 l h).1).head
      have hgap : ∀ c ∈ indent, isGapChar c = true := fun c h => isGapChar_of_isBlank (hi c h)
      have hbreaks : indent.count '\n' = 0 := by
        refine List.count_eq_zero.2 fun h => ?_
        exact absurd (hi _ h) (by decide)
      rw [Text.indented_append_break, Text.indented_of_not_mem indent hl.1.2]
      simp only [List.append_assoc, List.cons_append]
      rw [literalNodesFrom_line hl.1.2 (isChain_append_take hc.left_of_append (by simp [Window.isNameStart])),
        ← List.cons_append, literalNodesFrom_gap _ hgap ?_, if_neg (by simp [hbreaks])]
      · rw [ih (by simp) hl.2 hc.right_of_append.tail]
        simp
      · intro c hhead
        rw [List.head?_append, Text.head?_indented, hfirst] at hhead
        obtain rfl : first = c := Option.some.inj hhead
        exact Bool.eq_false_iff.2 fun h => absurd (isWhite_of_isGapChar h) (by simp [hwhite])

/-- A literal is read into the run. -/
theorem literalNodesFrom_literal {indent rest : List Char} (hi : ∀ c ∈ indent, Text.isBlank c = true)
    (hrest : ∀ d, rest.head? = some d → Window.isNameStart d = false) {content : String}
    (hc : IsLiteral content) (run : List Char) :
    literalNodesFrom run (Text.indented indent content.toList ++ rest) =
      literalNodesFrom ((Text.indented indent content.toList).reverse ++ run) rest := by
  have hnormal := hc.normal
  rw [Text.normalizeLines_eq] at hnormal
  have happart := hc.apart
  rw [← hnormal] at happart ⊢
  refine literalNodesFrom_joinLines hi hrest ?_ (fun line h => Text.solid_of_mem_lines h) happart run
  intro hnil
  rw [hnil] at hnormal
  exact hc.ne_nil hnormal.symm

theorem literalOf_literal {indent ws : List Char} (hi : ∀ c ∈ indent, Text.isBlank c = true)
    (hws : ∀ c ∈ ws, isGapChar c = true) {content : String} (hc : IsLiteral content) :
    literalOf ((Text.indented indent content.toList).reverse ++ ws) =
      [.leaf { kind := .literal, content }] := by
  unfold literalOf
  rw [List.reverse_append, List.reverse_reverse,
    Text.normalizeLines_blank_append fun c h => isWhite_of_isGapChar (hws c (List.mem_reverse.1 h)),
    Text.normalizeLines_indented fun c h => Text.isWhite_of_isBlank (hi c h), hc.normal]
  simp [hc.ne_nil]

/-! ## Nodes of a literal body -/

theorem isChain_apart_of_gap {ws : List Char} (h : ∀ c ∈ ws, isGapChar c = true) :
    ws.IsChain (Apart ['%']) :=
  (List.isChain_isInfix ws).imp_of_mem_imp fun c _ hc _ _ => apart_of_isGapChar (.inl (h c hc))

/-- The gap in front of a node: it is read as a separator if it has two line feeds, and into the run
otherwise. -/
theorem literalNodesFrom_pending (k : Nat) {blanks rest : List Char}
    (hb : ∀ c ∈ blanks, Text.isBlank c = true) (hrest : ∀ c, rest.head? = some c → isGapChar c = false)
    (run : List Char) :
    ∃ run', literalNodesFrom run (List.replicate k '\n' ++ blanks ++ rest) =
        (if 2 ≤ k then literalOf run ++ gapNodes k else []) ++ literalNodesFrom run' rest ∧
      (2 ≤ k ∧ run' = [] ∨ k < 2 ∧ ∃ ws, (∀ c ∈ ws, isGapChar c = true) ∧ run' = ws ++ run) := by
  have hgap : ∀ c ∈ blanks, isGapChar c = true := fun c h => isGapChar_of_isBlank (hb c h)
  have hbreak : '\n' ∉ blanks := fun h => absurd (hb _ h) (by decide)
  cases k with
  | zero =>
    refine ⟨blanks.reverse ++ run, ?_, .inr ⟨by decide, _, ?_, rfl⟩⟩
    · rw [if_neg (by decide), List.replicate_zero, List.nil_append, List.nil_append]
      refine literalNodesFrom_line hbreak ?_
      rw [List.isChain_append]
      refine ⟨isChain_apart_of_gap hgap, by cases rest <;> simp, fun c hc d _ => ?_⟩
      exact apart_of_isGapChar (.inl (hgap c (List.mem_of_mem_getLast? hc)))
    · exact fun c h => hgap c (List.mem_reverse.1 h)
  | succ k =>
    have hall : ∀ c ∈ List.replicate k '\n' ++ blanks, isGapChar c = true := by
      rw [List.forall_mem_append]
      refine ⟨fun c h => ?_, hgap⟩
      rw [List.eq_of_mem_replicate h]
      decide
    have hcount : ('\n' :: (List.replicate k '\n' ++ blanks)).count '\n' = k + 1 := by
      simp [List.count_eq_zero.2 hbreak]
    have hread := literalNodesFrom_gap run hall hrest
    rw [hcount] at hread
    rw [List.replicate_succ, List.cons_append, hread]
    by_cases hk : 2 ≤ k + 1
    · refine ⟨[], ?_, .inl ⟨hk, rfl⟩⟩
      rw [if_pos hk, if_pos hk, gapNodes, if_pos hk]
      simp
    · refine ⟨_, by rw [if_neg hk, if_neg hk]; rfl, .inr ⟨by omega, _, fun c h => ?_, rfl⟩⟩
      rw [List.mem_reverse, List.mem_cons] at h
      rcases h with rfl | h
      · decide
      · exact hall c h

/-- What the gap at the end of a literal body is read as. -/
def endNodes (close : Option (List Char)) (count : Nat) : List Node :=
  if close.isSome then [] else gapNodes count

section

variable {g : Grammar} {marked : Bool} {unit : List Char} {level : Nat} {close : Option (List Char)}

theorem literalNodesFrom_end (hu : ∀ c ∈ unit, Text.isBlank c = true) (hclose : IsClose close)
    {edge : Edge} {k : Nat} (run : List Char) :
    literalNodesFrom run (ending close
        (List.replicate k '\n' ++ if edge = .begun then indentation unit level else [])) =
      literalOf run ++ endNodes close k := by
  have hb : ∀ c ∈ (if edge = .begun then indentation unit level else []), Text.isBlank c = true := by
    split
    · exact isBlank_of_mem_indentation hu level
    · simp
  have hgap (j : Nat) {blanks : List Char} (hb : ∀ c ∈ blanks, Text.isBlank c = true) :
      literalNodesFrom run (List.replicate j '\n' ++ blanks) = literalOf run ++ gapNodes j := by
    obtain ⟨run', hread, ⟨hj, rfl⟩ | ⟨hj, ws, hws, rfl⟩⟩ :=
      literalNodesFrom_pending j hb (show ∀ c, ([] : List Char).head? = some c → _ by simp) run
    · rw [List.append_nil, if_pos hj] at hread
      rw [hread, literalNodesFrom, show literalOf [] = [] from rfl, List.append_nil]
    · rw [List.append_nil, if_neg (by omega)] at hread
      rw [hread, literalNodesFrom, literalOf_append_gap hws, gapNodes, if_neg (by omega)]
      simp
  cases close with
  | none => exact hgap k hb
  | some indent =>
    have htrim : Text.trimEnd (List.replicate k '\n' ++
        if edge = .begun then indentation unit level else []) = [] := by
      refine Text.trimEnd_blank fun c hc => ?_
      rcases List.mem_append.1 hc with hc | hc
      · rw [List.eq_of_mem_replicate hc]
        rfl
      · exact Text.isWhite_of_isBlank (hb c hc)
    have hread := hgap 1 (hclose indent rfl)
    show literalNodesFrom run (Text.trimEnd _ ++ '\n' :: indent) = _
    rw [htrim]
    exact hread

/-- What is written behind a use or a literal. -/
theorem head?_flowText_items {prev : Option Kind} {edge : Edge} (he : edge ≠ .begun)
    (hp : prev = some .literal ∨ edge = .filled) {ns : List Node} (h : IsFlow g marked false prev ns) :
    ∀ c, (flowText unit level prev edge ns).head? = some c →
      c = ' ' ∨ c = '\n' ∨ c = '%' ∧ edge = .opened := by
  intro c hc
  cases ns with
  | nil =>
    rw [flowText, if_neg he] at hc
    exact absurd hc (by simp)
  | cons n rest =>
    obtain ⟨-, ⟨hb, -⟩ | ⟨hb, -⟩ | ⟨-, -, -, hitem⟩⟩ := h.cases
    · exact absurd hb (by decide)
    · exact absurd hb (by decide)
    have hgap (hk : n.kind ≠ .text ∧ n.kind ≠ .sep ∧ n.kind ≠ .configDict) :
        flowText unit level prev edge (n :: rest) = edgeText (indentation unit level) edge ++
          (nodeText unit level n ++ flowText unit level (some n.kind) n.edgeBehind rest) := by
      rw [flowText_cons hk.2, gapText, if_neg fun h => hk.1 h.1, if_neg fun h => hk.1 h.1, List.append_assoc]
    cases hk : n.kind <;> rw [hk] at hitem <;> try exact hitem.elim
    case sep =>
      obtain ⟨-, count, hcount, hvalue⟩ := hitem
      rw [flowText, if_pos hk, sepCount_of_value hvalue, breaks, if_neg he] at hc
      obtain ⟨count, rfl⟩ := Nat.exists_eq_add_of_le' hcount
      exact .inr (.inl (Option.some.inj hc).symm)
    case literal =>
      rw [hgap (by simp [hk])] at hc
      rcases hp with hp | rfl
      · exact absurd hp hitem.2.2
      · exact .inl (Option.some.inj hc).symm
    case varUse =>
      rw [hgap (by simp [hk])] at hc
      cases edge with
      | begun => exact absurd rfl he
      | filled => exact .inl (Option.some.inj hc).symm
      | opened =>
        obtain ⟨label, children⟩ := n
        have hk : label.kind = .varUse := hk
        rw [nodeText, hk] at hc
        exact .inr (.inr ⟨(Option.some.inj hc).symm, rfl⟩)

theorem isBlank_edgeText (hu : ∀ c ∈ unit, Text.isBlank c = true) (level : Nat) (edge : Edge) :
    ∀ c ∈ edgeText (indentation unit level) edge, Text.isBlank c = true := by
  cases edge with
  | opened => simp [edgeText]
  | begun => exact isBlank_of_mem_indentation hu level
  | filled => simp [edgeText, Text.isBlank]

/-- The text of a literal item that is no separator, in front of those behind it. -/
theorem ending_flowText_item {n : Node} (hk : n.kind = .literal ∨ n.kind = .varUse) {text : List Char}
    (htext : nodeText unit level n = text)
    (hend : ∃ front c, text = front ++ [c] ∧ Text.isWhite c = false) (k : Nat) (prev : Option Kind)
    (edge : Edge) (rest : List Node) :
    ending close (List.replicate k '\n' ++ flowText unit level prev edge (n :: rest)) =
      List.replicate k '\n' ++ edgeText (indentation unit level) edge ++
        (text ++ ending close (flowText unit level (some n.kind) n.edgeBehind rest)) := by
  have hkinds : n.kind ≠ .text ∧ n.kind ≠ .sep ∧ n.kind ≠ .configDict := by
    rcases hk with h | h <;> simp [h]
  rw [flowText_cons hkinds.2, gapText, if_neg fun h => hkinds.1 h.1, if_neg fun h => hkinds.1 h.1, htext,
    ← List.append_assoc, ← List.append_assoc, ending_solid hend]

theorem settle_item {n m : Node} (hk : n.kind ≠ .sep) (hm : Node.leaf n.label.unplaced = m)
    (atEnd : Nat → List Node) (k : Nat) (rest : List Node) :
    settle atEnd k (n :: rest) = gapNodes k ++ m :: settle atEnd 0 rest := by
  rw [settle, if_neg hk, hm]

/-- A literal behind a gap. -/
theorem literalNodesFrom_cons_literal (hu : ∀ c ∈ unit, Text.isBlank c = true) {n : Node}
    (hk : n.kind = .literal) (hvalue : n.label.value = none) (hlayout : n.label.layout = none)
    (hcontent : IsLiteral n.content) {rest : List Node} (hflow : IsFlow g marked false (some n.kind) rest)
    {prev : Option Kind} {edge : Edge} {k : Nat} {run : List Char}
    (hrun : k < 2 → ∀ c ∈ run, isGapChar c = true)
    (hrest : ∀ run, literalNodesFrom run (ending close (flowText unit level (some n.kind) n.edgeBehind rest)) =
      literalOf run ++ settle (endNodes close) 0 rest) :
    literalNodesFrom run (ending close
        (List.replicate k '\n' ++ flowText unit level prev edge (n :: rest))) =
      literalOf run ++ settle (endNodes close) k (n :: rest) := by
  have hi := isBlank_of_mem_indentation hu level
  have hnode : Node.leaf n.label.unplaced = .leaf { kind := .literal, content := n.content } := by
    obtain ⟨⟨kind, content, value, span, layout, slot⟩, children⟩ := n
    obtain rfl : kind = .literal := hk
    obtain rfl : value = none := hvalue
    obtain rfl : layout = none := hlayout
    rfl
  obtain ⟨front, c, -, hwhite, hend⟩ := exists_indented (indentation unit level) hcontent.solid
  obtain ⟨hbegun, -⟩ := edgeText_behind_run (.inr hk) (indentation unit level)
  have hstop : ∀ d, (ending close (flowText unit level (some n.kind) n.edgeBehind rest)).head? = some d →
      Window.isNameStart d = false := by
    refine head?_ending close rfl fun d hd => ?_
    rcases head?_flowText_items hbegun (.inl (congrArg some hk)) hflow d hd with rfl | rfl | ⟨rfl, -⟩ <;> rfl
  have hsolid : ∀ c, (Text.indented (indentation unit level) n.content.toList ++
      ending close (flowText unit level (some n.kind) n.edgeBehind rest)).head? = some c →
      isGapChar c = false := by
    intro d hd
    obtain ⟨first, others, hfirst, hwhite⟩ := hcontent.solid.head
    rw [List.head?_append, Text.head?_indented, hfirst] at hd
    obtain rfl : first = d := Option.some.inj hd
    exact Bool.eq_false_iff.2 fun h => absurd (isWhite_of_isGapChar h) (by simp [hwhite])
  obtain ⟨run', hread, hcase⟩ := literalNodesFrom_pending k (isBlank_edgeText hu level edge) hsolid run
  rw [ending_flowText_item (.inl hk) (nodeText_of_run unit level (.inr hk)) ⟨front, c, hend, hwhite⟩, hread,
    literalNodesFrom_literal hi hstop hcontent, hrest, settle_item (by simp [hk]) hnode]
  rcases hcase with ⟨hle, rfl⟩ | ⟨hlt, ws, hws, rfl⟩
  · rw [if_pos hle, literalOf_literal hi (by simp) hcontent]
    simp
  · have hgap := hrun hlt
    rw [if_neg (by omega), literalOf_literal hi ?_ hcontent, literalOf_gap hgap, gapNodes, if_neg (by omega)]
    · simp
    · rw [List.forall_mem_append]
      exact ⟨hws, hgap⟩

/-- A use of a variable behind a gap. -/
theorem literalNodesFrom_cons_use (hu : ∀ c ∈ unit, Text.isBlank c = true) {n : Node}
    (hk : n.kind = .varUse) (hvalue : n.label.value = none) (hlayout : n.label.layout = none)
    (hname : IsName n.content) {rest : List Node} (hflow : IsFlow g marked false (some n.kind) rest)
    {prev : Option Kind} {edge : Edge} {k : Nat} {run : List Char}
    (hrest : literalNodesFrom [] (ending close (flowText unit level (some n.kind) n.edgeBehind rest)) =
      settle (endNodes close) 0 rest) :
    literalNodesFrom run (ending close
        (List.replicate k '\n' ++ flowText unit level prev edge (n :: rest))) =
      literalOf run ++ settle (endNodes close) k (n :: rest) := by
  have hnode : Node.leaf n.label.unplaced = useOf (String.ofList n.content.toList) := by
    obtain ⟨⟨kind, content, value, span, layout, slot⟩, children⟩ := n
    obtain rfl : kind = .varUse := hk
    obtain rfl : value = none := hvalue
    obtain rfl : layout = none := hlayout
    rw [String.ofList_toList]
    rfl
  have htext : nodeText unit level n = '%' :: n.content.toList := by
    obtain ⟨label, children⟩ := n
    have hk : label.kind = .varUse := hk
    rw [nodeText, hk]
    rfl
  have hfilled : n.edgeBehind = .filled := edgeBehind_of_call (by simp [hk])
  have hends : Ends ('%' :: n.content.toList) := Ends.sign (by decide) hname.all
  obtain ⟨front, c, hend, hwhite, -⟩ := hends
  have hstop : ∀ d, (ending close (flowText unit level (some n.kind) n.edgeBehind rest)).head? = some d →
      Window.isNameChar d = false := by
    rw [hfilled]
    refine head?_ending close rfl fun d hd => ?_
    rcases head?_flowText_items (by decide) (.inr rfl) hflow d hd with rfl | rfl | ⟨-, h⟩
    · rfl
    · rfl
    · exact absurd h (by decide)
  have hsign : ∀ c, ('%' :: n.content.toList ++
      ending close (flowText unit level (some n.kind) n.edgeBehind rest)).head? = some c →
      isGapChar c = false := by
    intro d hd
    obtain rfl : '%' = d := Option.some.inj hd
    rfl
  obtain ⟨run', hread, hcase⟩ := literalNodesFrom_pending k (isBlank_edgeText hu level edge) hsign run
  have hnil : literalOf [] = [] := rfl
  rw [ending_flowText_item (.inr hk) htext ⟨front, c, hend, hwhite⟩, hread,
    literalNodesFrom_use (by rwa [String.ofList_toList]) hstop, hrest, settle_item (by simp [hk]) hnode]
  rcases hcase with ⟨hle, rfl⟩ | ⟨hlt, ws, hws, rfl⟩
  · rw [if_pos hle, hnil]
    simp
  · rw [if_neg (by omega), literalOf_append_gap hws, gapNodes, if_neg (by omega)]
    simp

/-- The text of a literal body is read as its nodes behind the gap before it. -/
theorem literalNodesFrom_flow (hu : ∀ c ∈ unit, Text.isBlank c = true) (hclose : IsClose close)
    {items : List Node} {prev : Option Kind} {edge : Edge} {k : Nat} {run : List Char}
    (h : IsFlow g marked false prev items) (hedge : edge = .begun ↔ 0 < k)
    (hrun : k < 2 → prev ≠ some .literal → ∀ c ∈ run, isGapChar c = true) :
    literalNodesFrom run (ending close
        (List.replicate k '\n' ++ flowText unit level prev edge items)) =
      literalOf run ++ settle (endNodes close) k items := by
  induction items generalizing prev edge k run with
  | nil =>
    rw [flowText, settle]
    exact literalNodesFrom_end hu hclose run
  | cons n rest ih =>
    obtain ⟨hflow, ⟨hb, -⟩ | ⟨hb, -⟩ | ⟨-, -, hlayout, hitem⟩⟩ := h.cases
    · exact absurd hb (by decide)
    · exact absurd hb (by decide)
    cases hk : n.kind <;> rw [hk] at hitem <;> try exact hitem.elim
    case sep =>
      obtain ⟨-, count, hcount, hvalue⟩ := hitem
      have hwiden : 2 ≤ widen k n := by
        unfold widen
        rw [sepCount_of_value hvalue]
        split <;> omega
      have hbreaks : List.replicate k '\n' ++ breaks edge n.label.sepCount =
          List.replicate (widen k n) '\n' := by
        unfold breaks widen
        by_cases hk : k = 0
        · rw [if_pos hk, if_neg (by rw [hedge]; omega), hk]
          rfl
        · rw [if_neg hk, if_pos (hedge.2 (by omega)), List.replicate_append_replicate]
      rw [flowText, if_pos hk, settle, if_pos hk, ← List.append_assoc, hbreaks]
      rw [hk] at hflow
      exact ih hflow ⟨fun _ => by omega, fun _ => rfl⟩ fun hlt => by omega
    case literal =>
      obtain ⟨hvalue, hcontent, hprev⟩ := hitem
      refine literalNodesFrom_cons_literal hu hk hvalue hlayout hcontent hflow (fun hlt => hrun hlt hprev)
        fun run => ?_
      have hbegun := (edgeText_behind_run (.inr hk) []).1
      exact @ih _ _ 0 run hflow (by simpa using hbegun) fun _ hp => absurd (congrArg some hk) hp
    case varUse =>
      obtain ⟨hvalue, hname⟩ := hitem
      refine literalNodesFrom_cons_use hu hk hvalue hlayout hname hflow ?_
      have hfilled : n.edgeBehind = .filled := edgeBehind_of_call (by simp [hk])
      exact @ih _ _ 0 [] hflow (by simp [hfilled]) fun _ _ => by simp

end

end Evomark.Markup
