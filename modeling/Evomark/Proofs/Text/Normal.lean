import Evomark.Proofs.Text.Lines
/-!
# What the text of a body leaves out

Line feeds at either end of a text are irrelevant for `normalizeText` (`normalizeText_breaks_append`,
`normalizeText_append_breaks`). Of a text on one line it leaves what `collapseBlanks` makes of it
(`normalizeText_line`).
-/

namespace Evomark.Text

/-! ## Runs of blanks -/

/-- A character that is no blank ends a run of blanks and starts none. -/
theorem collapseBlanks_append_cons {c : Char} (hc : isBlank c = false) (inRun : Bool) (cs ds : List Char) :
    collapseBlanks inRun (cs ++ c :: ds) = collapseBlanks inRun cs ++ c :: collapseBlanks false ds := by
  fun_induction collapseBlanks inRun cs with
  | case1 => simp [collapseBlanks, hc]
  | case2 d rest hd ih => simpa [collapseBlanks, hd] using ih
  | case3 inRun d rest hd hrun ih => simpa [collapseBlanks, hd, hrun] using ih
  | case4 inRun d rest hd ih => simpa [collapseBlanks, hd] using ih

theorem collapseBlanks_cons {c : Char} (hc : isBlank c = false) (inRun : Bool) (cs : List Char) :
    collapseBlanks inRun (c :: cs) = c :: collapseBlanks false cs :=
  collapseBlanks_append_cons hc inRun [] cs

/-- Where no blank is, none is collapsed. -/
theorem collapseBlanks_of_forall {cs : List Char} (h : ∀ c ∈ cs, isBlank c = false) (inRun : Bool) :
    collapseBlanks inRun cs = cs := by
  induction cs generalizing inRun with
  | nil => rfl
  | cons c rest ih =>
    rw [List.forall_mem_cons] at h
    rw [collapseBlanks_cons h.1, ih h.2]

/-- The text ends with a character that is no blank. -/
def Shut (cs : List Char) : Prop := ∃ front c, cs = front ++ [c] ∧ isBlank c = false

/-- What follows a text that does not end with a blank is collapsed by itself. -/
theorem collapseBlanks_append {cs : List Char} (h : Shut cs) (inRun : Bool) (ds : List Char) :
    collapseBlanks inRun (cs ++ ds) = collapseBlanks inRun cs ++ collapseBlanks false ds := by
  obtain ⟨front, c, rfl, hc⟩ := h
  rw [List.append_assoc, List.singleton_append, collapseBlanks_append_cons hc,
    collapseBlanks_append_cons hc, List.append_assoc]
  rfl

/-- Collapsing blanks brings spaces in, and nothing else. -/
theorem mem_collapseBlanks {inRun : Bool} {cs : List Char} {c : Char}
    (h : c ∈ collapseBlanks inRun cs) : c = ' ' ∨ c ∈ cs := by
  fun_induction collapseBlanks inRun cs with
  | case1 => exact absurd h (by simp)
  | case2 d rest hd ih => exact (ih h).imp_right (.tail _)
  | case3 inRun d rest hd hrun ih =>
    rcases List.mem_cons.1 h with rfl | h
    · exact .inl rfl
    · exact (ih h).imp_right (.tail _)
  | case4 inRun d rest hd ih =>
    rcases List.mem_cons.1 h with rfl | h
    · exact .inr (.head _)
    · exact (ih h).imp_right (.tail _)

/-! ## Blanks beside line feeds -/

theorem tightenBreaks_break (afterBreak : Bool) (cs : List Char) :
    tightenBreaks afterBreak ('\n' :: cs) = '\n' :: tightenBreaks true cs := by
  cases cs <;> simp [tightenBreaks]

/-- All that a line feed in front changes is whether a space stays at the start. -/
theorem tightenBreaks_false_cases (cs : List Char) :
    tightenBreaks false cs = tightenBreaks true cs ∨
      tightenBreaks false cs = ' ' :: tightenBreaks true cs := by
  match cs with
  | [] => exact .inl rfl
  | [c] => by_cases hc : c = ' ' <;> simp [tightenBreaks, hc]
  | c :: d :: rest => by_cases hc : c = ' ' <;> by_cases hd : d = '\n' <;> simp [tightenBreaks, hc, hd]

/-- A line feed behind a text takes at most the white space away that the text ends with. -/
theorem tightenBreaks_append_break (afterBreak : Bool) (cs ds : List Char) :
    ∃ front blanks, IsBlankText blanks ∧ tightenBreaks afterBreak cs = front ++ blanks ∧
      tightenBreaks afterBreak (cs ++ '\n' :: ds) = front ++ '\n' :: tightenBreaks true ds := by
  fun_induction tightenBreaks afterBreak cs with
  | case1 afterBreak => exact ⟨[], [], by simp [IsBlankText], rfl, tightenBreaks_break ..⟩
  | case2 afterBreak c h =>
    simp only [Bool.and_eq_true, beq_iff_eq] at h
    refine ⟨[], [], by simp [IsBlankText], rfl, ?_⟩
    simp [tightenBreaks, h.2, tightenBreaks_break]
  | case3 afterBreak c h =>
    by_cases hc : c = ' '
    · refine ⟨[], [c], by simp [IsBlankText, hc, isWhite], rfl, ?_⟩
      simp [tightenBreaks, hc, tightenBreaks_break]
    · exact ⟨[c], [], by simp [IsBlankText], rfl, by simp [tightenBreaks, hc, tightenBreaks_break]⟩
  | case4 afterBreak c d rest h ih =>
    obtain ⟨front, blanks, hblank, hcs, happend⟩ := ih
    exact ⟨front, blanks, hblank, hcs, by simpa [tightenBreaks, h] using happend⟩
  | case5 afterBreak c d rest hd h ih =>
    obtain ⟨front, blanks, hblank, hcs, happend⟩ := ih
    exact ⟨front, blanks, hblank, hcs, by simpa [tightenBreaks, hd, h] using happend⟩
  | case6 afterBreak c d rest hd h ih =>
    obtain ⟨front, blanks, hblank, hcs, happend⟩ := ih
    exact ⟨c :: front, blanks, hblank, by rw [hcs]; rfl, by simpa [tightenBreaks, hd, h] using happend⟩

/-- Without a line feed there is nothing to tighten. -/
theorem tightenBreaks_of_not_mem {cs : List Char} (h : '\n' ∉ cs) : tightenBreaks false cs = cs := by
  match cs with
  | [] => rfl
  | [c] => simp [tightenBreaks]
  | c :: d :: rest =>
    simp only [List.mem_cons, not_or] at h
    have hc : (c == '\n') = false := by simpa using Ne.symm h.1
    have hrest : '\n' ∉ d :: rest := by simp [h]
    simp [tightenBreaks, Ne.symm h.2.1, hc, tightenBreaks_of_not_mem hrest]

/-! ## Normal texts -/

theorem normalizeText_break_cons (cs : List Char) : normalizeText ('\n' :: cs) = normalizeText cs := by
  have hcollapse : collapseBlanks false ('\n' :: cs) = '\n' :: collapseBlanks false cs :=
    collapseBlanks_cons rfl false cs
  have htrim : trim (tightenBreaks true (collapseBlanks false cs)) = normalizeText cs := by
    unfold normalizeText
    obtain h | h := tightenBreaks_false_cases (collapseBlanks false cs)
    · rw [h]
    · rw [h]
      exact (@trim_blank_append [' '] (by simp [IsBlankText, isWhite]) _).symm
  rw [← htrim, normalizeText, hcollapse, tightenBreaks_break]
  exact trim_blank_append (isBlankText_breaks 1) _

theorem normalizeText_append_break (cs : List Char) :
    normalizeText (cs ++ ['\n']) = normalizeText cs := by
  obtain ⟨front, blanks, hblank, hcs, happend⟩ :=
    tightenBreaks_append_break false (collapseBlanks false cs) []
  unfold normalizeText
  rw [collapseBlanks_append_cons rfl, collapseBlanks, happend, hcs, trim_append_blank hblank]
  exact trim_append_blank (isBlankText_breaks 1) front

/-- Line feeds in front of a text are no part of it. -/
theorem normalizeText_breaks_append (n : Nat) (cs : List Char) :
    normalizeText (List.replicate n '\n' ++ cs) = normalizeText cs := by
  induction n with
  | zero => rfl
  | succ n ih => rw [List.replicate_succ, List.cons_append, normalizeText_break_cons, ih]

/-- Line feeds behind a text are no part of it. -/
theorem normalizeText_append_breaks (n : Nat) (cs : List Char) :
    normalizeText (cs ++ List.replicate n '\n') = normalizeText cs := by
  induction n with
  | zero => rw [List.replicate_zero, List.append_nil]
  | succ n ih => rw [List.replicate_succ', ← List.append_assoc, normalizeText_append_break, ih]

/-- Of a text on one line the runs of blanks are collapsed. -/
theorem normalizeText_line {cs : List Char} (h : '\n' ∉ cs) :
    normalizeText cs = trim (collapseBlanks false cs) := by
  have hmem : '\n' ∉ collapseBlanks false cs := fun hc => (mem_collapseBlanks hc).elim (by decide) h
  rw [normalizeText, tightenBreaks_of_not_mem hmem]

theorem Solid.shut {cs : List Char} (h : Solid cs) : Shut cs := by
  obtain ⟨front, c, hcs, hc⟩ := h.last
  exact ⟨front, c, hcs, not_isBlank_of_not_isWhite hc⟩

/-- The ends of a text stay when its blanks are collapsed. -/
theorem Solid.collapseBlanks {cs : List Char} (h : Solid cs) : Solid (collapseBlanks false cs) := by
  constructor
  · obtain ⟨c, rest, rfl, hc⟩ := h.head
    exact ⟨c, _, collapseBlanks_cons (not_isBlank_of_not_isWhite hc) false rest, hc⟩
  · obtain ⟨front, c, rfl, hc⟩ := h.last
    exact ⟨_, c, collapseBlanks_append_cons (not_isBlank_of_not_isWhite hc) false front [], hc⟩

/-- A solid line with a space behind it, as literals are put together. -/
theorem normalizeText_line_space {cs : List Char} (h : Solid cs) (hb : '\n' ∉ cs) :
    normalizeText (cs ++ [' ']) = collapseBlanks false cs := by
  have hspace : IsBlankText (Text.collapseBlanks false [' ']) := by
    intro c hc
    rw [List.mem_singleton.1 hc]
    rfl
  rw [normalizeText_line (by simp [hb]), collapseBlanks_append h.shut,
    trim_append_blank hspace, h.collapseBlanks.trim_eq]

end Evomark.Text
