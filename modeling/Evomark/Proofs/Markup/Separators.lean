import Evomark.Proofs.Document.Reread
import Evomark.Proofs.Markup.Shape
import Evomark.Proofs.Text.Visible
/-!
# Separators in a literal body

Where the only white space of a text is that of gaps, no two separators are read side by side
(`sepsApart_literalNodes`): a separator takes the whole gap, and between two gaps something is visible.
Separators that stand apart are read back with their counts (`settle_literalNodes`).
-/

namespace Evomark.Markup

open Node

/-- The nodes that are read in a literal body. -/
inductive IsItem : Node → Prop
  | literal (content : String) : IsItem (.leaf { kind := .literal, content })
  | use (name : String) : IsItem (useOf name)
  | sep {count : Nat} (h : 2 ≤ count) : IsItem (sepOf count)

theorem IsItem.children_eq_nil {n : Node} (h : IsItem n) : n.children = [] := by
  cases h <;> rfl

/-- No two separators stand side by side. -/
def SepsApart (ns : List Node) : Prop := ns.IsChain fun m n => ¬ (m.kind = .sep ∧ n.kind = .sep)

/-! ## Runs of text -/

theorem literalOf_cases (run : List Char) :
    literalOf run = [] ∨ ∃ content, literalOf run = [.leaf { kind := .literal, content }] := by
  unfold literalOf
  simp only
  split
  · exact .inl rfl
  · exact .inr ⟨_, rfl⟩

/-- What is visible of a run is kept. -/
theorem literalOf_ne_nil {run : List Char} (h : ∃ c ∈ run, Text.isWhite c = false) :
    literalOf run ≠ [] := by
  obtain ⟨c, hc, hwhite⟩ := h
  have hvisible : Text.visible run.reverse ≠ [] :=
    List.ne_nil_of_mem (List.mem_filter.2 ⟨List.mem_reverse.2 hc, by simp [hwhite]⟩)
  have hnormal : Text.normalizeLines run.reverse ≠ [] := by
    intro hnil
    rw [← Text.visible_normalizeLines, hnil] at hvisible
    exact hvisible rfl
  rw [literalOf, if_neg (by rwa [List.isEmpty_iff])]
  exact List.cons_ne_nil _ _

theorem isItem_of_mem_literalOf {run : List Char} {n : Node} (h : n ∈ literalOf run) : IsItem n := by
  obtain hnil | ⟨content, hcontent⟩ := literalOf_cases run
  · rw [hnil] at h
    exact absurd h (by simp)
  · rw [hcontent, List.mem_singleton] at h
    rw [h]
    exact .literal content

theorem isItem_of_mem_literalNodesFrom {run cs : List Char} {n : Node}
    (h : n ∈ literalNodesFrom run cs) : IsItem n := by
  fun_induction literalNodesFrom run cs with
  | case1 run => exact isItem_of_mem_literalOf h
  | case2 run c rest hs ih =>
    rw [List.mem_append, List.mem_cons] at h
    rcases h with h | rfl | h
    · exact isItem_of_mem_literalOf h
    · exact .use _
    · exact ih h
  | case3 run rest hs gap hg ih =>
    rw [List.mem_append, List.mem_cons] at h
    rcases h with h | rfl | h
    · exact isItem_of_mem_literalOf h
    · exact .sep hg
    · exact ih h
  | case4 run rest hs gap hg ih => exact ih h
  | case5 run c rest hs hc ih => exact ih h

/-! ## Separators apart -/

theorem SepsApart.literalOf_append {ns : List Node} (h : SepsApart ns) (run : List Char) :
    SepsApart (literalOf run ++ ns) := by
  obtain hnil | ⟨content, hcontent⟩ := literalOf_cases run
  · rwa [hnil]
  · rw [hcontent, List.singleton_append]
    exact List.isChain_cons.2 ⟨fun _ _ hboth => absurd hboth.1 Kind.noConfusion, h⟩

theorem head?_dropWhile_gap (cs : List Char) :
    ∀ c, (cs.dropWhile isGapChar).head? = some c → isGapChar c = false := by
  intro c hc
  have h := List.head?_dropWhile_not isGapChar cs
  rw [hc] at h
  simpa using h

/-- A separator is not read first where something is visible before the first gap. -/
theorem kind_head_literalNodesFrom {run cs : List Char}
    (hw : ∀ c ∈ cs, Text.isWhite c = true → isGapChar c = true)
    (h : (∃ c ∈ run, Text.isWhite c = false) ∨ ∀ c, cs.head? = some c → isGapChar c = false) :
    ∀ n ∈ (literalNodesFrom run cs).head?, n.kind ≠ .sep := by
  have hrun {run : List Char} {ns : List Node} (hns : literalOf run = [] → ∀ n ∈ ns.head?, n.kind ≠ .sep) :
      ∀ n ∈ (literalOf run ++ ns).head?, n.kind ≠ .sep := by
    obtain hnil | ⟨content, hcontent⟩ := literalOf_cases run
    · rw [hnil]
      exact hns hnil
    · rw [hcontent]
      simp [Node.leaf, Node.kind]
  fun_induction literalNodesFrom run cs with
  | case1 run =>
    rw [← List.append_nil (literalOf run)]
    exact hrun fun _ => by simp
  | case2 run c rest hs ih => exact hrun fun _ => by simp [useOf, Node.leaf, Node.kind]
  | case3 run rest hs gap hg ih =>
    obtain hvisible | hhead := h
    · exact hrun fun hnil => absurd hnil (literalOf_ne_nil hvisible)
    · exact absurd (hhead _ rfl) (by decide)
  | case4 run rest hs gap hg ih =>
    obtain ⟨c, hc, hwhite⟩ := h.resolve_right fun hhead => absurd (hhead _ rfl) (by decide)
    exact ih (fun c hc => hw c (.tail _ ((List.dropWhile_suffix _).mem hc)))
      (.inl ⟨c, List.mem_append_right _ hc, hwhite⟩)
  | case5 run c rest hs hc ih =>
    refine ih (fun d hd => hw d (.tail _ hd)) (.inl ?_)
    obtain ⟨d, hd, hwhite⟩ | hhead := h
    · exact ⟨d, .tail _ hd, hwhite⟩
    · refine ⟨c, .head _, Bool.eq_false_iff.2 fun hwhite => ?_⟩
      exact absurd (hw c (.head _) hwhite) (by simp [hhead c rfl])

theorem sepsApart_literalNodesFrom {run cs : List Char}
    (hw : ∀ c ∈ cs, Text.isWhite c = true → isGapChar c = true) :
    SepsApart (literalNodesFrom run cs) := by
  fun_induction literalNodesFrom run cs with
  | case1 run =>
    rw [← List.append_nil (literalOf run)]
    exact SepsApart.literalOf_append .nil run
  | case2 run c rest hs ih =>
    have hrest := ih fun c hc => hw c (.tail _ ((List.dropWhile_suffix _).mem hc))
    exact SepsApart.literalOf_append
      (List.isChain_cons.2 ⟨fun _ _ hboth => absurd hboth.1 Kind.noConfusion, hrest⟩) run
  | case3 run rest hs gap hg ih =>
    have hwrest := fun c hc => hw c (.tail _ ((List.dropWhile_suffix isGapChar).mem hc))
    -- the gap takes all the white space there is, so that something visible is behind it
    have hhead := @kind_head_literalNodesFrom [] _ hwrest (.inr (head?_dropWhile_gap rest))
    exact SepsApart.literalOf_append
      (List.isChain_cons.2 ⟨fun n hn hboth => hhead n hn hboth.2, ih hwrest⟩) run
  | case4 run rest hs gap hg ih => exact ih fun c hc => hw c (.tail _ ((List.dropWhile_suffix _).mem hc))
  | case5 run c rest hs hc ih => exact ih fun d hd => hw d (.tail _ hd)

/-- Where the only white space is that of gaps, no two separators are read side by side. -/
theorem sepsApart_literalNodes {cs : List Char}
    (hw : ∀ c ∈ cs, Text.isWhite c = true → isGapChar c = true) : SepsApart (literalNodes cs) :=
  sepsApart_literalNodesFrom hw

/-! ## Reading back -/

/-- Items whose separators stand apart are read back as they are, behind the gap before them. -/
theorem settle_items {items : List Node} (hi : ∀ n ∈ items, IsItem n) (ha : SepsApart items)
    {count : Nat} (hc : count = 0 ∨ 2 ≤ count ∧ ∀ n ∈ items.head?, n.kind ≠ .sep) :
    settle gapNodes count items = gapNodes count ++ items := by
  induction items generalizing count with
  | nil => rw [settle, List.append_nil]
  | cons n rest ih =>
    rw [List.forall_mem_cons] at hi
    obtain ⟨hhead, hrest⟩ := List.isChain_cons.1 ha
    have hplain (hk : n.kind ≠ .sep) (hn : Node.leaf n.label.unplaced = n) :
        settle gapNodes count (n :: rest) = gapNodes count ++ n :: rest := by
      rw [settle, if_neg hk, hn, ih hi.2 hrest (.inl rfl)]
      rfl
    cases hi.1 with
    | literal content => exact hplain Kind.noConfusion rfl
    | use name => exact hplain Kind.noConfusion rfl
    | sep hk =>
      rename_i k
      obtain rfl : count = 0 := hc.resolve_right fun h => absurd rfl (h.2 (sepOf k) rfl)
      have hwiden : widen 0 (sepOf k) = k := (if_pos rfl).trans (sepCount_of_value rfl)
      have hnext : ∀ n ∈ rest.head?, n.kind ≠ .sep := fun n hn hsep => hhead n hn ⟨rfl, hsep⟩
      rw [settle, if_pos (show (sepOf k).kind = .sep from rfl), hwiden,
        ih hi.2 hrest (.inr ⟨hk, hnext⟩), gapNodes, if_pos hk]
      rfl

/-- A literal body is read back as it is from a text that starts at its first node. -/
theorem settle_literalNodes {cs : List Char}
    (hw : ∀ c ∈ cs, Text.isWhite c = true → isGapChar c = true) :
    settle gapNodes 0 (literalNodes cs) = literalNodes cs :=
  settle_items (fun _ => isItem_of_mem_literalNodesFrom) (sepsApart_literalNodes hw) (.inl rfl)

end Evomark.Markup
