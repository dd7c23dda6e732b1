import Evomark.Proofs.Json.Written
import Evomark.Proofs.Markup.ReadLiteral
/-!
# Reading clauses

The clauses of a call are read from their text, one after the other: a parameter from the text of
its value (`read?_param`), a body from its inside between delimiters if it closes there
(`read?_delimited`).
-/

namespace Evomark

open Markup

namespace Clause

/-! ## Closing characters -/

/-- What stands behind the closing brace is left. -/
theorem splitBraces_append {depth : Nat} {cs inner rest : List Char}
    (h : splitBraces depth cs = some (inner, rest)) (more : List Char) :
    splitBraces depth (cs ++ more) = some (inner, rest ++ more) := by
  fun_induction splitBraces depth cs generalizing inner rest with
  | case1 | case2 => simp at h
  | case3 depth d tail ih =>
    simp only [extend, Option.map_eq_some_iff, Prod.mk.injEq] at h
    obtain ⟨⟨i, r⟩, hi, rfl, rfl⟩ := h
    rw [List.cons_append, List.cons_append, splitBraces.eq_def]
    simp [ih hi, extend]
  | case4 depth tail hs ih =>
    simp only [extend, Option.map_eq_some_iff, Prod.mk.injEq] at h
    obtain ⟨⟨i, r⟩, hi, rfl, rfl⟩ := h
    rw [List.cons_append, splitBraces.eq_def]
    simp [ih hi, extend]
  | case5 tail =>
    obtain ⟨rfl, rfl⟩ := Prod.mk.inj (Option.some.inj h)
    rw [List.cons_append, splitBraces.eq_def]
    simp
  | case6 tail hs hb depth ih =>
    simp only [extend, Option.map_eq_some_iff, Prod.mk.injEq] at h
    obtain ⟨⟨i, r⟩, hi, rfl, rfl⟩ := h
    rw [List.cons_append, splitBraces.eq_def]
    simp [ih hi, extend]
  | case7 depth c tail hs hb hc ih =>
    simp only [extend, Option.map_eq_some_iff, Prod.mk.injEq] at h
    obtain ⟨⟨i, r⟩, hi, rfl, rfl⟩ := h
    rw [List.cons_append, splitBraces.eq_def]
    simp [hs, hb, hc, ih hi, extend]

/-- What stands behind the closing parenthesis is left. -/
theorem splitParens_append {depth : Nat} {quoted : Bool} {cs inner rest : List Char}
    (h : splitParens depth quoted cs = some (inner, rest)) (more : List Char) :
    splitParens depth quoted (cs ++ more) = some (inner, rest ++ more) := by
  fun_induction splitParens depth quoted cs generalizing inner rest with
  | case1 | case2 => simp at h
  | case3 depth d tail ih =>
    simp only [extend, Option.map_eq_some_iff, Prod.mk.injEq] at h
    obtain ⟨⟨i, r⟩, hi, rfl, rfl⟩ := h
    rw [List.cons_append, List.cons_append, splitParens.eq_def]
    simp [ih hi, extend]
  | case4 depth c tail hc ih =>
    simp only [extend, Option.map_eq_some_iff, Prod.mk.injEq] at h
    obtain ⟨⟨i, r⟩, hi, rfl, rfl⟩ := h
    rw [List.cons_append, splitParens.eq_def]
    simp [hc, ih hi, extend]
  | case5 depth quoted tail hq ih | case6 depth quoted tail hq ho ih =>
    simp only [extend, Option.map_eq_some_iff, Prod.mk.injEq] at h
    obtain ⟨⟨i, r⟩, hi, rfl, rfl⟩ := h
    rw [List.cons_append, splitParens.eq_def]
    simp [hq, ih hi, extend]
  | case7 quoted tail hq =>
    obtain ⟨rfl, rfl⟩ := Prod.mk.inj (Option.some.inj h)
    rw [List.cons_append, splitParens.eq_def]
    simp [hq]
  | case8 quoted tail hq ho hb depth ih =>
    simp only [extend, Option.map_eq_some_iff, Prod.mk.injEq] at h
    obtain ⟨⟨i, r⟩, hi, rfl, rfl⟩ := h
    rw [List.cons_append, splitParens.eq_def]
    simp [hq, ih hi, extend]
  | case9 depth quoted c tail hq ho hb hc ih =>
    simp only [extend, Option.map_eq_some_iff, Prod.mk.injEq] at h
    obtain ⟨⟨i, r⟩, hi, rfl, rfl⟩ := h
    rw [List.cons_append, splitParens.eq_def]
    simp [hq, ho, hb, hc, ih hi, extend]

/-- What stands behind the closing fence is left. -/
theorem splitAt?_append {sep cs before after : List Char}
    (h : Text.splitAt? sep cs = some (before, after)) (hsep : sep ≠ []) (more : List Char) :
    Text.splitAt? sep (cs ++ more) = some (before, after ++ more) := by
  fun_induction Text.splitAt? sep cs generalizing before after with
  | case1 hs => exact absurd (List.isEmpty_iff.1 hs) hsep
  | case2 => simp at h
  | case3 c rest hs =>
    obtain ⟨rfl, rfl⟩ := Prod.mk.inj (Option.some.inj h)
    obtain ⟨tail, htail⟩ := List.isPrefixOf_iff_prefix.1 hs
    have hs' : sep.isPrefixOf (c :: rest ++ more) = true := by
      rw [List.isPrefixOf_iff_prefix, ← htail, List.append_assoc]
      exact List.prefix_append _ _
    rw [List.cons_append] at hs' ⊢
    rw [Text.splitAt?, if_pos hs', ← List.cons_append, ← htail]
    simp
  | case4 c rest hs ih =>
    simp only [Option.map_eq_some_iff, Prod.mk.injEq] at h
    obtain ⟨⟨b, a⟩, hb, rfl, rfl⟩ := h
    have hread := ih hb
    have hs' : ¬ sep.isPrefixOf (c :: (rest ++ more)) = true := by
      intro hp
      have hlength := length_splitAt? hb
      refine hs (List.isPrefixOf_iff_prefix.2 ?_)
      refine List.prefix_of_prefix_length_le (List.isPrefixOf_iff_prefix.1 hp)
        (List.prefix_append (c :: rest) more) ?_
      simp only [List.length_cons]
      omega
    rw [List.cons_append, Text.splitAt?, if_neg hs', hread]
    rfl

/-! ## Clauses -/

/-- A written value is read up to the parenthesis behind it, as what its text denotes. -/
theorem param?_write (offset : Nat) (value : Json) (rest : List Char) :
    param? ⟨offset, '(' :: value.write ++ ')' :: rest⟩ =
      some (.param value.compact (paramValue value.compact)
          ⟨offset + 1, offset + 1 + Text.byteLength value.write⟩,
        ⟨offset + 1 + Text.byteLength value.write + 1, rest⟩) := by
  rw [List.cons_append, param?]
  simp only [if_true, Json.splitParens_write, value.solid_write.trim_eq]
  rfl

/-- A parameter is read as its value. -/
theorem read?_param (offset : Nat) (value : Json) (rest : List Char) :
    ∃ span stop, read? ⟨offset, '(' :: value.write ++ ')' :: rest⟩ =
      some (.param value.compact (paramValue value.compact) span, ⟨stop, rest⟩) :=
  ⟨_, _, by rw [read?, param?_write, Option.some_or]⟩

/-- A body between braces that closes is read with what is inside it. -/
theorem read?_braced {inside : List Char} (h : splitBraces 0 (inside ++ ['\x7d']) = some (inside, []))
    (offset : Nat) (rest : List Char) :
    read? ⟨offset, '\x7b' :: inside ++ ['\x7d'] ++ rest⟩ =
      some (.body (if inside.contains '\n' then .block else .inline) ⟨offset + 1, inside⟩,
        ⟨(Window.mk (offset + 1) inside).stop + 1, rest⟩) := by
  have hsplit := splitBraces_append h rest
  rw [List.nil_append] at hsplit
  have hparam : param? ⟨offset, '\x7b' :: (inside ++ ['\x7d'] ++ rest)⟩ = none := by
    rw [param?]
    exact if_neg (by decide)
  have hbraced : braced? ⟨offset, '\x7b' :: (inside ++ ['\x7d'] ++ rest)⟩ =
      some (.body (if inside.contains '\n' then .block else .inline) ⟨offset + 1, inside⟩,
        ⟨(Window.mk (offset + 1) inside).stop + 1, rest⟩) := by
    rw [braced?]
    simp only [if_true, hsplit]
  rw [List.cons_append, List.cons_append, read?, hparam, Option.none_or, body?, hbraced, Option.some_or]

/-- A body between fences that closes is read with what is inside it. -/
theorem read?_fenced {inside : List Char} {n : Nat} (hn : 0 < n)
    (h : Text.splitAt? (closingFence n) (inside ++ closingFence n) = some (inside, [])) (offset : Nat)
    (rest : List Char) :
    read? ⟨offset, List.replicate n '=' ++ '>' :: inside ++ closingFence n ++ rest⟩ =
      some (.body (.code n n) ⟨offset + n + 1, inside⟩,
        ⟨(Window.mk (offset + n + 1) inside).stop + n + 1, rest⟩) := by
  have hsplit := splitAt?_append h (by simp [closingFence]) rest
  rw [List.nil_append] at hsplit
  obtain ⟨m, rfl⟩ := Nat.exists_eq_succ_of_ne_zero (Nat.ne_of_gt hn)
  have hshape : List.replicate (m + 1) '=' ++ '>' :: inside ++ closingFence (m + 1) ++ rest =
      '=' :: (List.replicate m '=' ++ '>' :: (inside ++ closingFence (m + 1) ++ rest)) := by
    simp [List.replicate_succ]
  have hfence : List.replicate (m + 1) '=' ++ '>' :: inside ++ closingFence (m + 1) ++ rest =
      List.replicate (m + 1) '=' ++ '>' :: (inside ++ closingFence (m + 1) ++ rest) := by
    simp
  obtain ⟨htake, hdrop⟩ := @Text.takeWhile_append_stop (· == '=') (List.replicate (m + 1) '=')
    ('>' :: (inside ++ closingFence (m + 1) ++ rest)) (fun c hc => by simp [List.eq_of_mem_replicate hc])
    (fun c hc => by obtain rfl := Option.some.inj hc; rfl)
  have hparam : param? ⟨offset, List.replicate (m + 1) '=' ++ '>' :: inside ++ closingFence (m + 1) ++ rest⟩ =
      none := by
    rw [hshape, param?]
    exact if_neg (by decide)
  have hbraced : braced? ⟨offset, List.replicate (m + 1) '=' ++ '>' :: inside ++ closingFence (m + 1) ++ rest⟩ =
      none := by
    rw [hshape, braced?]
    exact if_neg (by decide)
  have hfenced : fenced? ⟨offset, List.replicate (m + 1) '=' ++ '>' :: inside ++ closingFence (m + 1) ++ rest⟩ =
      some (.body (.code (m + 1) (m + 1)) ⟨offset + (m + 1) + 1, inside⟩,
        ⟨(Window.mk (offset + (m + 1) + 1) inside).stop + (m + 1) + 1, rest⟩) := by
    rw [fenced?, hfence]
    simp only [htake, hdrop, List.length_replicate, if_neg (Nat.succ_ne_zero m), if_true, hsplit]
  rw [read?, hparam, Option.none_or, body?, hbraced, Option.none_or, hfenced]

/-- A body that closes is read with its layout. -/
theorem read?_delimited {layout : Layout} {inside : List Char} (hblock : layout = .block → '\n' ∈ inside)
    (hdirect : layout ≠ .directChild)
    (hcode : ∀ opening closing, layout = .code opening closing → opening = closing ∧ 0 < opening)
    (h : Node.closes layout inside = true) (offset : Nat) (rest : List Char) :
    ∃ start stop, read? ⟨offset, Node.delimited layout inside ++ rest⟩ =
      some (.body layout ⟨start, inside⟩, ⟨stop, rest⟩) := by
  cases layout with
  | directChild => exact absurd rfl hdirect
  | inline =>
    simp only [Node.closes, Bool.and_eq_true, beq_iff_eq, Bool.not_eq_true'] at h
    have hread := read?_braced h.1 offset rest
    rw [h.2] at hread
    exact ⟨_, _, hread⟩
  | block =>
    simp only [Node.closes, beq_iff_eq] at h
    have hread := read?_braced h offset rest
    rw [List.contains_iff_mem.2 (hblock rfl)] at hread
    exact ⟨_, _, hread⟩
  | code opening closing =>
    obtain ⟨rfl, hpos⟩ := hcode _ _ rfl
    simp only [Node.closes, beq_iff_eq] at h
    have hread := read?_fenced hpos h offset rest
    simp only [closingFence, ← List.append_assoc] at hread
    exact ⟨_, _, hread⟩

/-- No clause starts here. -/
theorem read?_none {offset : Nat} {rest : List Char}
    (h : ∀ c, rest.head? = some c → c ≠ '(' ∧ c ≠ '\x7b' ∧ c ≠ '=') :
    read? ⟨offset, rest⟩ = none := by
  cases rest with
  | nil => rfl
  | cons c more =>
    obtain ⟨hparen, hbrace, hequals⟩ := h c rfl
    have hb : (c == '=') = false := by simpa using hequals
    rw [read?, param?, body?, braced?, fenced?]
    simp [hparen, hbrace, hb]

end Clause

namespace Window

theorem clauses_of_read? {w next : Window} {clause : Clause} (h : Clause.read? w = some (clause, next)) :
    w.clauses = (clause :: next.clauses.1, next.clauses.2) := by
  rw [clauses]
  split
  · rename_i hnone
    rw [h] at hnone
    cases hnone
  · rename_i hsome
    rw [h] at hsome
    obtain ⟨rfl, rfl⟩ := Prod.mk.inj (Option.some.inj hsome)
    rfl

theorem clauses_of_none {w : Window} (h : Clause.read? w = none) : w.clauses = ([], w) := by
  rw [clauses]
  split
  · rfl
  · rename_i hsome
    rw [h] at hsome
    cases hsome

end Window

/-! ## Bodies -/

namespace Markup

open Node

/-- What a body gives: these nodes and this text, from windows read to their ends. -/
structure Inside.Gives (i : Inside) (content : String) (ns : List Node) : Prop where
  complete : i.complete = true
  warnings : i.warnings = []
  content : i.content = content
  children : unplacedAll i.children = ns

theorem Contents.Gives.inside {c : Contents} {ns : List Node} (h : c.Gives ns) : c.inside.Gives "" ns := by
  refine ⟨?_, ?_, rfl, h.nodes⟩
  · simp only [Contents.inside, Contents.complete, h.rest, List.isEmpty_nil, Bool.true_and,
      List.all_eq_true]
    exact fun f hf => (h.findings f hf).1
  · exact List.flatMap_eq_nil_iff.2 fun f hf => (h.findings f hf).2

theorem unplacedAll_settle {atEnd : Nat → List Node} (he : ∀ k, unplacedAll (atEnd k) = atEnd k) (k : Nat)
    (items : List Node) : unplacedAll (settle atEnd k items) = settle atEnd k items := by
  have hgap (k : Nat) : unplacedAll (gapNodes k) = gapNodes k := by
    unfold gapNodes
    split <;> rfl
  induction items generalizing k with
  | nil => exact he k
  | cons n rest ih =>
    rw [settle]
    split
    · exact ih _
    · rw [unplacedAll_append, hgap, unplacedAll, ih]
      rfl

theorem unplacedAll_rereadItems (layout : Option Layout) (items : List Node) :
    unplacedAll (rereadItems layout items) = rereadItems layout items := by
  unfold rereadItems
  split
  · exact unplacedAll_settle (fun _ => rfl) _ _
  · refine unplacedAll_settle (fun k => ?_) _ _
    unfold gapNodes
    split <;> rfl

section

variable {g : Grammar} {marked : Bool} {unit : List Char} {level : Nat} {label : Label}
  {children : List Node}

/-- What stands between the delimiters of a body. -/
def insideOf (unit : List Char) (level : Nat) (label : Label) (children : List Node) : List Char :=
  insideText unit level label fun level edge => flowText unit level none edge children

theorem insideText_of_empty (hc : label.content = "") (flow : Nat → Edge → List Char) :
    insideText unit level label flow =
      match label.layout.getD .inline with
      | .block => Text.trimEnd ('\n' :: flow (level + 1) .begun) ++ '\n' :: indentation unit level
      | .code .. => flow level .filled
      | _ => flow level .opened := by
  rw [insideText]
  simp only [hc]
  rfl

/-- The inside of a box is read as its nodes. -/
theorem readsAs_insideOf (hu : ∀ c ∈ unit, Text.isBlank c = true) (hc : label.content = "")
    (hflow : IsFlow g marked true none children)
    (he : ∀ n ∈ children, n.kind ≠ .text → n.kind ≠ .sep →
      ReadsNode g unit (levelInside label.layout level) n) :
    ReadsAs g (insideOf unit level label children) (rereadAll children) := by
  rw [insideOf, insideText_of_empty hc]
  have hopen (close : Option (List Char)) (hclose : IsClose close) {level : Nat} (edge : Edge)
      (ws : List Char) (hws : ∀ c ∈ ws, isGapChar c = true)
      (he : ∀ n ∈ children, n.kind ≠ .text → n.kind ≠ .sep → ReadsNode g unit level n) :
      ReadsAs g (ending close (ws ++ flowText unit level none edge children)) (rereadAll children) :=
    (readsAs_flow hu hclose he hflow).1 edge ws hws
  have hnone : IsClose none := fun _ h => absurd h (by simp)
  unfold levelInside at he
  cases hl : label.layout with
  | none =>
    rw [hl] at he
    exact hopen none hnone .opened [] (by simp) he
  | some layout =>
    rw [hl] at he
    cases layout with
    | block =>
      refine hopen (some (indentation unit level)) (fun indent h => ?_) .begun ['\n'] ?_ he
      swap
      · simp [isGapChar]
      obtain rfl := Option.some.inj h
      exact isBlank_of_mem_indentation hu level
    | code => exact hopen none hnone .filled [] (by simp) he
    | inline | directChild => exact hopen none hnone .opened [] (by simp) he

/-- The inside of a literal body is read as its nodes. -/
theorem literalNodes_insideOf (hu : ∀ c ∈ unit, Text.isBlank c = true) (hc : label.content = "")
    (hflow : IsFlow g marked false none children) :
    literalNodes (insideOf unit level label children) = rereadItems label.layout children := by
  rw [insideOf, insideText_of_empty hc, rereadItems, literalNodes]
  have hnil : literalOf [] = [] := rfl
  have hopen {edge : Edge} (hedge : edge ≠ .begun) (level : Nat) :
      literalNodesFrom [] (flowText unit level none edge children) = settle gapNodes 0 children := by
    have hread := @literalNodesFrom_flow g marked unit level none hu (fun _ h => absurd h (by simp))
      children none edge 0 [] hflow (by simpa using hedge) (by simp)
    rw [hnil] at hread
    exact hread
  cases hl : label.layout with
  | none => exact hopen (by decide) level
  | some layout =>
    cases layout with
    | block =>
      have hread := @literalNodesFrom_flow g marked unit (level + 1) (some (indentation unit level)) hu
        (fun indent h => ?_) children none .begun 1 [] hflow (by simp) (by simp)
      · rw [hnil] at hread
        exact hread
      · obtain rfl := Option.some.inj h
        exact isBlank_of_mem_indentation hu level
    | code => exact hopen (by decide) level
    | inline | directChild => exact hopen (by decide) level

end

end Markup

end Evomark
