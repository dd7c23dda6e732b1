import Evomark.Proofs.Exec.Reference
import Evomark.Proofs.Markup.ReadLiteral
import Evomark.Proofs.Markup.Separators
import Evomark.Proofs.Text.Tight
/-!
# The text of a body without uses

What a literal body without uses is evaluated to is its normal text (`synthesize_literals`), although on the way
there it is cut into literals, each trimmed line by line, and separators. Both ways the lines become tight, and a
gap is left as its line feeds: the reader keeps a single line feed inside a literal, where empty lines are dropped,
and takes two or more as a separator, which stands for as many.
-/

namespace Evomark

open Markup Text

/-- The text of nodes of which none uses a variable. -/
def plainText (ns : List Node) : List Char := ns.flatMap (piece fun _ => none)

theorem plainText_append (ms ns : List Node) : plainText (ms ++ ns) = plainText ms ++ plainText ns :=
  List.flatMap_append

theorem plainText_literal (content : List Char) :
    plainText [.leaf { kind := .literal, content := String.ofList content }] = content ++ [' '] := by
  rw [plainText, List.flatMap_singleton]
  show (String.ofList content).toList ++ [' '] = _
  rw [String.toList_ofList]

theorem plainText_sepOf_cons (count : Nat) (ns : List Node) :
    plainText (sepOf count :: ns) = List.replicate count '\n' ++ plainText ns := by
  rw [plainText, List.flatMap_cons, ← plainText]
  exact congrArg (List.replicate · '\n' ++ plainText ns) (sepCount_of_value rfl)

/-- No uses are read where no construct starts. -/
theorem usedNames_literalNodesFrom {run cs : List Char} (ha : cs.IsChain (Apart ['%'])) :
    usedNames (literalNodesFrom run cs) = [] := by
  have hrun (run : List Char) (ns : List Node) : usedNames (literalOf run ++ ns) = usedNames ns := by
    obtain hnil | ⟨content, hcontent⟩ := literalOf_cases run
    · rw [hnil, List.nil_append]
    · rw [hcontent]
      rfl
  have hrest {c : Char} {rest : List Char} (ha : (c :: rest).IsChain (Apart ['%'])) :
      (rest.dropWhile isGapChar).IsChain (Apart ['%']) :=
    ha.tail.infix (List.dropWhile_suffix _).isInfix
  fun_induction literalNodesFrom run cs with
  | case1 run => exact List.append_nil (literalOf run) ▸ hrun run []
  | case2 run c rest hs ih => exact absurd hs (not_startsConstruct (.head _) (List.isChain_cons.1 ha).1)
  | case3 run rest hs gap hg ih => exact (hrun run _).trans (ih (hrest ha))
  | case4 run rest hs gap hg ih => exact ih (hrest ha)
  | case5 run c rest hs hc ih => exact ih ha.tail

theorem isGapChar_of_isGap {gap : List Char} (h : IsGap gap) : ∀ c ∈ gap, isGapChar c = true := by
  intro c hc
  obtain hblank | rfl := h c hc
  · exact isGapChar_of_isBlank hblank
  · rfl

/-- A line is read into the run, and the gap behind it is read as a separator or into the run too. -/
theorem literalNodesFrom_line_gap {l gap rest : List Char} (run : List Char) (hl : '\n' ∉ l)
    (ha : (l ++ '\n' :: (gap ++ rest)).IsChain (Apart ['%'])) (hgap : IsGap gap)
    (hrest : ∀ c, rest.head? = some c → isWhite c = false) :
    literalNodesFrom run (l ++ '\n' :: (gap ++ rest)) =
      if 2 ≤ ('\n' :: gap).count '\n' then
        literalOf (l.reverse ++ run) ++ sepOf (('\n' :: gap).count '\n') :: literalNodesFrom [] rest
      else literalNodesFrom (('\n' :: gap).reverse ++ (l.reverse ++ run)) rest := by
  have hrest : ∀ c, rest.head? = some c → isGapChar c = false := fun c hc =>
    Bool.eq_false_iff.2 fun h => Bool.eq_false_iff.1 (hrest c hc) (isWhite_of_isGapChar h)
  rw [literalNodesFrom_line hl (isChain_append_take ha.left_of_append (by simp [Window.isNameStart])),
    ← List.cons_append, literalNodesFrom_gap _ (isGapChar_of_isGap hgap) hrest]

/-! ## Literals -/

/-- A run of text is left as its lines. -/
theorem tight_literalOf (run : List Char) :
    tight (plainText (literalOf run)) = tight (joinLines (lines run.reverse)) := by
  unfold literalOf
  rw [normalizeLines_eq]
  simp only
  split
  · rename_i h
    rw [List.isEmpty_iff.1 h]
    rfl
  · rw [plainText_literal]
    exact tight_append_blank (by simp [isBlank]) _

/-- A separator is left as its line feeds. -/
theorem tight_plainText_sepOf {count : Nat} (h : 0 < count) (ms ns : List Node) :
    tight (plainText (ms ++ sepOf count :: ns)) =
      tight (plainText ms) ++ (List.replicate count '\n' ++ tight (plainText ns)) := by
  rw [plainText_append, plainText_sepOf_cons, tight_gap (isGap_breaks count) (List.mem_replicate.2 ⟨by omega, rfl⟩),
    List.count_replicate_self]

/-- A line behind other lines is left tight. -/
theorem tight_literalOf_line {l run : List Char} {ls : List (List Char)} (hl : '\n' ∉ l)
    (hw : ∀ c ∈ l, isWhite c = true → isBlank c = true) (hv : ∃ c ∈ l, isWhite c = false)
    (hrun : lines (run.reverse ++ l) = ls ++ lines l) :
    tight (plainText (literalOf (l.reverse ++ run))) = tight (terminated ls ++ l) := by
  rw [tight_literalOf, List.reverse_append, List.reverse_reverse, hrun, lines_visible hl hv, joinLines_append_line]
  exact tight_terminated_congr ls (tight_trim hw)

theorem trimEnd_tight_joinLines (ls : List (List Char)) :
    trimEnd (tight (joinLines ls)) = trimEnd (tight (terminated ls)) := by
  obtain rfl | ⟨front, l, rfl⟩ := List.eq_nil_or_concat' ls
  · rfl
  · rw [← List.append_nil (terminated _), terminated_append_line, ← List.append_assoc, tight_append_break,
      joinLines_append_line]
    exact (trimEnd_append_blank (isBlankText_breaks 1) _).symm

/-- The last line of a body. -/
theorem trimEnd_tight_literalNodesFrom_line {l run : List Char} {ls : List (List Char)} (hl : '\n' ∉ l)
    (hw : ∀ c ∈ l, isWhite c = true → isBlank c = true) (ha : l.IsChain (Apart ['%']))
    (hhead : ∀ c, l.head? = some c → isWhite c = false) (hrun : lines (run.reverse ++ l) = ls ++ lines l) :
    trimEnd (tight (plainText (literalNodesFrom run l))) = trimEnd (tight (terminated ls ++ l)) := by
  have hread := @literalNodesFrom_line l [] run hl (by simpa using ha)
  rw [List.append_nil, literalNodesFrom] at hread
  rw [hread]
  cases l with
  | nil =>
    rw [show lines [] = [] from rfl, List.append_nil, List.append_nil] at hrun
    rw [List.reverse_nil, List.nil_append, List.append_nil, tight_literalOf, hrun, trimEnd_tight_joinLines]
  | cons c rest => rw [tight_literalOf_line hl hw ⟨c, .head _, hhead c rfl⟩ hrun]

/-- From something visible on, a body is left as its tight lines. `ls` are the lines that have been read into the
run, and what follows is read as lines of its own. -/
theorem trimEnd_tight_literalNodesFrom {cs run : List Char} {ls : List (List Char)}
    (hw : ∀ c ∈ cs, isWhite c = true → isBlank c = true ∨ c = '\n') (ha : cs.IsChain (Apart ['%']))
    (hhead : ∀ c, cs.head? = some c → isWhite c = false) (hrun : ∀ x, lines (run.reverse ++ x) = ls ++ lines x) :
    trimEnd (tight (plainText (literalNodesFrom run cs))) = trimEnd (tight (terminated ls ++ cs)) := by
  induction hn : cs.length using Nat.strong_induction_on generalizing cs run ls with
  | _ n ih =>
    have hblank {l : List Char} (hmem : ∀ c ∈ l, c ∈ cs) (hl : '\n' ∉ l) : ∀ c ∈ l, isWhite c = true → isBlank c = true :=
      fun c hc hwhite => (hw c (hmem c hc) hwhite).resolve_right fun he => hl (he ▸ hc)
    obtain hcs | ⟨l, more, rfl, hl⟩ := line_cases cs
    · exact trimEnd_tight_literalNodesFrom_line hcs (hblank (fun _ h => h) hcs) ha hhead (hrun cs)
    · obtain ⟨gap, rest, rfl, hgap, hrest⟩ := exists_gap fun c (hc : c ∈ more) => hw c (by simp [hc])
      have hline := hblank (fun c hc => by simp [hc]) hl
      have hvisible : ∃ c ∈ l, isWhite c = false := by
        cases l with
        | nil => exact absurd (hhead _ rfl) (by decide)
        | cons c l => exact ⟨c, .head _, hhead c rfl⟩
      have htight (front : List Char) : tight (front ++ '\n' :: (gap ++ rest)) =
          tight front ++ (List.replicate (('\n' :: gap).count '\n') '\n' ++ tight rest) :=
        tight_gap (List.forall_mem_cons.2 ⟨.inr rfl, hgap⟩) (.head _) front rest
      have hmore (run : List Char) (ls : List (List Char)) (hrun : ∀ x, lines (run.reverse ++ x) = ls ++ lines x) :=
        ih rest.length (by rw [← hn]; simp; omega) (fun c hc => hw c (by simp [hc]))
          ha.right_of_append.tail.right_of_append hrest hrun rfl
      rw [literalNodesFrom_line_gap run hl ha hgap hrest]
      split
      · have hend := hmore [] [] fun _ => rfl
        rw [tight_plainText_sepOf (by omega), tight_literalOf_line hl hline hvisible (hrun l), ← List.append_assoc,
          ← List.append_assoc, htight, ← List.append_assoc]
        exact trimEnd_append_congr _ hend
      · -- the line feed stays in the run, so that the line is one of those read before
        have hcount : ('\n' :: gap).count '\n' = 1 := by
          rw [List.count_cons_self] at *
          omega
        have hrev : (('\n' :: gap).reverse ++ (l.reverse ++ run)).reverse = run.reverse ++ l ++ '\n' :: gap := by simp
        have hend := hmore (('\n' :: gap).reverse ++ (l.reverse ++ run)) (ls ++ [trim l]) fun x => by
          rw [hrev, List.append_assoc, List.cons_append, lines_append_break, hrun, lines_visible hl hvisible,
            lines_blank_append hgap.isBlankText]
        rw [hend, terminated_append_line]
        refine congrArg trimEnd (tight_terminated_congr ls ?_)
        rw [tight_append_break, tight_trim hline, htight, hcount]
        rfl

/-! ## Bodies -/

/-- The white space in front of a body is left as line feeds. -/
theorem exists_literalNodes_gap {gap rest : List Char} (hgap : IsGap gap) (ha : (gap ++ rest).IsChain (Apart ['%']))
    (hrest : ∀ c, rest.head? = some c → isWhite c = false) :
    ∃ count run, IsBlankText run ∧ plainText (literalNodes (gap ++ rest)) =
      List.replicate count '\n' ++ plainText (literalNodesFrom run rest) := by
  have hblank : IsBlankText gap.reverse := fun c hc => hgap.isBlankText c (List.mem_reverse.1 hc)
  rw [literalNodes]
  obtain hb | ⟨l, more, rfl, hl⟩ := line_cases gap
  · refine ⟨0, gap.reverse, hblank, ?_⟩
    have htake : (gap ++ rest.take 1).IsChain (Apart ['%']) :=
      ha.infix (List.prefix_append_right_inj gap |>.2 (List.take_prefix 1 rest)).isInfix
    rw [literalNodesFrom_line hb htake, List.append_nil]
    rfl
  · have hfront : IsGap l := fun c hc => hgap c (by simp [hc])
    have hmore : IsGap more := fun c hc => hgap c (by simp [hc])
    have hread := literalNodesFrom_line_gap [] hl (by simpa using ha) hmore hrest
    rw [List.append_nil] at hread
    rw [List.append_assoc, List.cons_append, hread]
    split
    · refine ⟨('\n' :: more).count '\n', [], by simp [IsBlankText], ?_⟩
      have hnil : literalOf l.reverse = [] := literalOf_gap fun c hc => isGapChar_of_isGap hfront c (List.mem_reverse.1 hc)
      rw [hnil, List.nil_append, plainText_sepOf_cons]
    · rw [List.reverse_append] at hblank
      exact ⟨0, _, hblank, rfl⟩

/-- A body without uses has its normal text. -/
theorem normalizeText_literalNodes {cs : List Char} (hw : ∀ c ∈ cs, isWhite c = true → isBlank c = true ∨ c = '\n')
    (ha : cs.IsChain (Apart ['%'])) : normalizeText (plainText (literalNodes cs)) = normalizeText cs := by
  obtain ⟨gap, rest, rfl, hgap, hrest⟩ := exists_gap hw
  obtain ⟨count, run, hrun, hread⟩ := exists_literalNodes_gap hgap ha hrest
  have hend := @trimEnd_tight_literalNodesFrom rest run [] (fun c hc => hw c (List.mem_append_right _ hc))
    ha.right_of_append hrest fun x => lines_blank_append (fun c hc => hrun c (List.mem_reverse.1 hc)) x
  rw [normalizeText_eq, normalizeText_eq, hread, tight_gap_append (isGap_breaks count), tight_gap_append hgap,
    trim_blank_append (isBlankText_breaks _), trim_blank_append (isBlankText_breaks _)]
  exact trim_congr hend

/-- A literal body whose white space is spaces, tabs and line feeds and in which no use of a variable starts is
evaluated to its normal text, whatever the state is and without a change to it, with no hosts and no warning. Between
two parts of it that end and start with something visible, two or more line feeds keep their number: what is left of
the parts ends and starts with something visible too. -/
theorem synthesize_literals {text : List Char}
    (hw : ∀ c ∈ text, isWhite c = true → c = ' ' ∨ c = '\t' ∨ c = '\n') (ha : text.IsChain (Apart ['%'])) :
    (∀ s, synthesize s (literalNodes text) = (some (String.ofList (normalizeText text)), [], s)) ∧
      ∀ front gap back, text = front ++ (gap ++ back) → EndsVisibly front → IsGap gap → 2 ≤ gap.count '\n' →
        StartsVisibly back →
        normalizeText text = normalizeText front ++ (List.replicate (gap.count '\n') '\n' ++ normalizeText back) ∧
          Solid (normalizeText front) ∧ Solid (normalizeText back) := by
  refine ⟨fun s => ?_, fun front gap back htext hfront hgap hcount hback => ⟨?_, ?_, ?_⟩⟩
  · have hwhite : ∀ c ∈ text, isWhite c = true → isBlank c = true ∨ c = '\n' := by
      intro c hc h
      obtain rfl | rfl | rfl := hw c hc h
      · exact .inl rfl
      · exact .inl rfl
      · exact .inr rfl
    have hunused : usedNames (literalNodes text) = [] := usedNames_literalNodesFrom ha
    rw [synthesize_of_no_uses s hunused, ← plainText, normalizeText_literalNodes hwhite ha]
  · have hbreak : '\n' ∈ gap := List.count_pos_iff.1 (by omega)
    rw [htext, normalizeText_gap hfront hgap hbreak hback]
  · exact solid_normalizeText (.inl hfront)
  · exact solid_normalizeText (.inr hback)

/-- White space of all kinds around and between two paragraphs, with a percent sign that starts nothing. -/
theorem synthesize_literals_mixed :
    let front := " \t\n\na \t b%\n \t c".toList
    let gap := " \n\t\n \n ".toList
    let back := "5% \n\n ".toList
    (∀ s, synthesize s (literalNodes (front ++ (gap ++ back))) = (some "a b%\nc\n\n\n5%", [], s)) ∧
      normalizeText (front ++ (gap ++ back)) = normalizeText front ++ (List.replicate 3 '\n' ++ normalizeText back) := by
  intro front gap back
  have hw : ∀ c ∈ front ++ (gap ++ back), isWhite c = true → c = ' ' ∨ c = '\t' ∨ c = '\n' :=
    forall_mem_of_all (by decide)
  obtain ⟨htext, hbetween⟩ := synthesize_literals hw (by decide)
  have hnormal : normalizeText (front ++ (gap ++ back)) = "a b%\nc\n\n\n5%".toList := by decide +kernel
  have hgap : IsGap gap := forall_mem_of_all (by decide)
  refine ⟨fun s => by rw [htext s, hnormal, String.ofList_toList], ?_⟩
  exact (hbetween front gap back rfl ⟨" \t\n\na \t b%\n \t ".toList, 'c', by decide, rfl⟩ hgap (by decide)
    ⟨'5', "% \n\n ".toList, by decide, rfl⟩).1

end Evomark
