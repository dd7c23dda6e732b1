import Evomark.Proofs.Text.Normal
/-!
# Normal texts line by line

`normalizeText` goes over a text twice, and what it does at a blank depends on what follows. Line by line
there is less to it: a line loses the blanks at its ends, and within it runs of blanks are collapsed
(`tight`). That is all, but for the ends of the text, which are trimmed (`normalizeText_eq`). So a gap between
lines is left as its line feeds (`tight_gap`), and none of these is lost between two parts of a text
(`normalizeText_gap`).
-/

namespace Evomark.Text

/-- A line without blanks at its ends and with its runs of blanks collapsed. -/
def tightLine (cs : List Char) : List Char := collapseBlanks false (strip isBlank cs)

/-- A text of tight lines. -/
def tight (cs : List Char) : List Char := joinLines ((splitLines cs).map tightLine)

/-- Blanks and line feeds. -/
def IsGap (cs : List Char) : Prop := ∀ c ∈ cs, isBlank c = true ∨ c = '\n'

theorem IsGap.isBlankText {ws : List Char} (h : IsGap ws) : IsBlankText ws :=
  fun c hc => (h c hc).elim isWhite_of_isBlank fun he => he ▸ rfl

theorem isGap_breaks (n : Nat) : IsGap (List.replicate n '\n') := fun _ hc => .inr (List.eq_of_mem_replicate hc)

/-! ## Lines -/

theorem tight_of_not_mem {cs : List Char} (h : '\n' ∉ cs) : tight cs = tightLine cs := by
  rw [tight, splitLines_of_not_mem h]
  rfl

theorem tight_append_break (cs ds : List Char) : tight (cs ++ '\n' :: ds) = tight cs ++ '\n' :: tight ds := by
  rw [tight, splitLines_append_break, List.map_append, joinLines_append]
  · rfl
  · simpa using splitLines_ne_nil cs
  · simpa using splitLines_ne_nil ds

theorem not_mem_of_isBlank {ws : List Char} (h : ∀ c ∈ ws, isBlank c = true) : '\n' ∉ ws :=
  fun hc => absurd (h _ hc) (by decide)

theorem tight_blank_append {ws : List Char} (h : ∀ c ∈ ws, isBlank c = true) (cs : List Char) :
    tight (ws ++ cs) = tight cs := by
  have hline {l : List Char} (hl : '\n' ∉ l) : tight (ws ++ l) = tight l := by
    rw [tight_of_not_mem hl, tight_of_not_mem (by simp [hl, not_mem_of_isBlank h]), tightLine,
      strip_append_left h, tightLine]
  obtain hcs | ⟨l, rest, rfl, hl⟩ := line_cases cs
  · exact hline hcs
  · rw [← List.append_assoc, tight_append_break, hline hl, tight_append_break]

theorem tight_append_blank {ws : List Char} (h : ∀ c ∈ ws, isBlank c = true) (cs : List Char) :
    tight (cs ++ ws) = tight cs := by
  induction cs using lines_induct with
  | line l hl =>
    rw [tight_of_not_mem hl, tight_of_not_mem (by simp [hl, not_mem_of_isBlank h]), tightLine,
      strip_append_right h, tightLine]
  | more l rest hl ih => rw [List.append_assoc, List.cons_append, tight_append_break, ih, tight_append_break]

/-- A gap in front of a text is left as its line feeds. -/
theorem tight_gap_append {ws : List Char} (h : IsGap ws) (cs : List Char) :
    tight (ws ++ cs) = List.replicate (ws.count '\n') '\n' ++ tight cs := by
  induction ws with
  | nil => rfl
  | cons c rest ih =>
    have hrest := ih fun d hd => h d (.tail _ hd)
    rcases h c (.head _) with hc | rfl
    · have hne : c ≠ '\n' := by
        rintro rfl
        exact absurd hc (by decide)
      have hblank : ∀ d ∈ [c], isBlank d = true := by simpa using hc
      rw [List.count_cons_of_ne hne, ← hrest]
      exact tight_blank_append hblank (rest ++ cs)
    · rw [List.count_cons_self, List.replicate_succ, List.cons_append, List.cons_append, ← hrest]
      exact tight_append_break [] (rest ++ cs)

/-- A gap with a line feed between two texts is left as its line feeds. -/
theorem tight_gap {ws : List Char} (h : IsGap ws) (hb : '\n' ∈ ws) (cs ds : List Char) :
    tight (cs ++ (ws ++ ds)) = tight cs ++ (List.replicate (ws.count '\n') '\n' ++ tight ds) := by
  obtain ⟨front, back, rfl, hfront⟩ := List.eq_append_cons_of_mem hb
  have hblank : ∀ c ∈ front, isBlank c = true := fun c hc =>
    (h c (by simp [hc])).resolve_right fun he => hfront (he ▸ hc)
  have hback : IsGap back := fun c hc => h c (by simp [hc])
  have hshape : cs ++ (front ++ '\n' :: back ++ ds) = (cs ++ front) ++ '\n' :: (back ++ ds) := by simp
  have hcount : (front ++ '\n' :: back).count '\n' = back.count '\n' + 1 := by
    rw [List.count_append, List.count_eq_zero.2 hfront, List.count_cons_self, Nat.zero_add]
  rw [hshape, tight_append_break, tight_append_blank hblank, tight_gap_append hback, hcount,
    List.replicate_succ, List.cons_append]

/-- White space is blanks and line feeds, up to what is visible. -/
theorem exists_gap {cs : List Char} (h : ∀ c ∈ cs, isWhite c = true → isBlank c = true ∨ c = '\n') :
    ∃ gap rest, cs = gap ++ rest ∧ IsGap gap ∧ ∀ c, rest.head? = some c → isWhite c = false := by
  refine ⟨cs.takeWhile isWhite, cs.dropWhile isWhite, List.takeWhile_append_dropWhile.symm, fun c hc => ?_,
    fun c hc => ?_⟩
  · exact h c ((List.takeWhile_prefix isWhite).subset hc) (List.mem_takeWhile_imp hc)
  · have hnot := List.head?_dropWhile_not isWhite cs
    rw [hc] at hnot
    simpa using hnot

/-! ## Lines put together -/

/-- Lines with a line feed behind each. -/
def terminated (ls : List (List Char)) : List Char := ls.flatMap (· ++ ['\n'])

theorem terminated_cons_append (l : List Char) (ls : List (List Char)) (cs : List Char) :
    terminated (l :: ls) ++ cs = l ++ '\n' :: (terminated ls ++ cs) := by
  simp [terminated]

theorem terminated_append_line (ls : List (List Char)) (l cs : List Char) :
    terminated (ls ++ [l]) ++ cs = terminated ls ++ (l ++ '\n' :: cs) := by
  simp [terminated]

theorem joinLines_append_line (ls : List (List Char)) (l : List Char) : joinLines (ls ++ [l]) = terminated ls ++ l := by
  induction ls with
  | nil => rfl
  | cons line more ih =>
    rw [List.cons_append, ← List.singleton_append, joinLines_append (by simp) (by simp), ih, terminated_cons_append]
    rfl

theorem tight_terminated_congr (ls : List (List Char)) {cs ds : List Char} (h : tight cs = tight ds) :
    tight (terminated ls ++ cs) = tight (terminated ls ++ ds) := by
  induction ls with
  | nil => exact h
  | cons line more ih => rw [terminated_cons_append, terminated_cons_append, tight_append_break, tight_append_break, ih]

/-- Nothing else than blanks is trimmed of a line whose white space they are. -/
theorem tight_trim {cs : List Char} (h : ∀ c ∈ cs, isWhite c = true → isBlank c = true) : tight (trim cs) = tight cs := by
  obtain ⟨front, back, hcs, hfront, hback⟩ := exists_strip isWhite cs
  have hmem {ws : List Char} (hws : ∀ c ∈ ws, c ∈ cs) (hw : ∀ c ∈ ws, isWhite c = true) : ∀ c ∈ ws, isBlank c = true :=
    fun c hc => h c (hws c hc) (hw c hc)
  have hfront := hmem (fun c hc => by rw [hcs]; simp [hc]) hfront
  have hback := hmem (fun c hc => by rw [hcs]; simp [hc]) hback
  conv_rhs => rw [hcs]
  rw [tight_blank_append hfront, tight_append_blank hback]
  rfl

/-! ## One line -/

/-- Blanks are collapsed to a space, if there are any. -/
theorem collapseBlanks_blank {ws : List Char} (h : ∀ c ∈ ws, isBlank c = true) :
    collapseBlanks false ws = [] ∨ collapseBlanks false ws = [' '] := by
  have hrun {ws : List Char} (h : ∀ c ∈ ws, isBlank c = true) : collapseBlanks true ws = [] := by
    induction ws with
    | nil => rfl
    | cons c rest ih =>
      rw [List.forall_mem_cons] at h
      rw [collapseBlanks, if_pos h.1, if_pos rfl, ih h.2]
  cases ws with
  | nil => exact .inl rfl
  | cons c rest =>
    rw [List.forall_mem_cons] at h
    refine .inr ?_
    rw [collapseBlanks, if_pos h.1, if_neg (by decide), hrun h.2]

/-- A tight line is empty, or starts and ends with characters that are no blanks. -/
theorem tightLine_cases (cs : List Char) :
    tightLine cs = [] ∨ Shut (tightLine cs) ∧ (tightLine cs).head? ≠ some ' ' := by
  obtain hnil | ⟨⟨c, rest, hhead, hc⟩, front, d, hlast, hd⟩ := @strip_cases isBlank cs
  · exact .inl (by rw [tightLine, hnil]; rfl)
  · refine .inr ⟨?_, ?_⟩
    · rw [tightLine, hlast]
      exact ⟨_, d, collapseBlanks_append_cons hd false front [], hd⟩
    · rw [tightLine, hhead, collapseBlanks_cons hc, List.head?_cons]
      intro he
      obtain rfl := Option.some.inj he
      exact absurd hc (by decide)

theorem not_mem_tightLine {cs : List Char} (h : '\n' ∉ cs) : '\n' ∉ tightLine cs := by
  obtain ⟨front, back, hcs, -, -⟩ := exists_strip isBlank cs
  intro hc
  refine (mem_collapseBlanks hc).elim (by decide) fun hc => h ?_
  rw [hcs]
  simp [hc]

/-- When its blanks are collapsed, a line is what is tight of it between at most one space at either end. -/
theorem exists_collapseBlanks (cs : List Char) :
    ∃ front back, collapseBlanks false cs = front ++ (tightLine cs ++ back) ∧ (front = [] ∨ front = [' ']) ∧
      (back = [] ∨ back = [' ']) ∧ (tightLine cs = [] → back = []) := by
  obtain ⟨front, back, hcs, hfront, hback⟩ := exists_strip isBlank cs
  obtain hnil | ⟨⟨c, rest, hhead, hc⟩, hlast⟩ := @strip_cases isBlank cs
  · have hline : tightLine cs = [] := by rw [tightLine, hnil]; rfl
    have hblank : ∀ c ∈ cs, isBlank c = true := by
      rw [hcs, hnil, List.nil_append, List.forall_mem_append]
      exact ⟨hfront, hback⟩
    exact ⟨_, [], by rw [hline, List.append_nil, List.append_nil], collapseBlanks_blank hblank, .inl rfl, fun _ => rfl⟩
  · refine ⟨_, _, ?_, collapseBlanks_blank hfront, collapseBlanks_blank hback, fun he => ?_⟩
    · have hmiddle := @collapseBlanks_append (strip isBlank cs) hlast false back
      rw [← tightLine] at hmiddle
      rw [← hmiddle]
      conv_lhs => rw [hcs]
      rw [hhead, List.cons_append, collapseBlanks_append_cons hc, collapseBlanks_cons hc]
    · rw [tightLine, hhead, collapseBlanks_cons hc] at he
      cases he

/-! ## The line feeds between lines -/

theorem tightenBreaks_space (cs : List Char) : tightenBreaks true (' ' :: cs) = tightenBreaks false cs := by
  cases cs with
  | nil => rfl
  | cons c rest => by_cases hc : c = '\n' <;> simp [tightenBreaks, hc]

/-- Nothing is taken from a line that does not end with a blank, nor start with one behind a line feed. -/
theorem tightenBreaks_append {cs : List Char} (hlast : Shut cs) (hb : '\n' ∉ cs) (afterBreak : Bool)
    (hhead : afterBreak = true → cs.head? ≠ some ' ') (ds : List Char) :
    tightenBreaks afterBreak (cs ++ ds) = cs ++ tightenBreaks false ds := by
  induction cs generalizing afterBreak with
  | nil =>
    obtain ⟨front, c, hcs, -⟩ := hlast
    simp at hcs
  | cons c rest ih =>
    rw [List.mem_cons, not_or] at hb
    have hbreak : (c == '\n') = false := beq_eq_false_iff_ne.2 (Ne.symm hb.1)
    cases rest with
    | nil =>
      have hspace : (c == ' ') = false := by
        obtain ⟨front, d, hcs, hd⟩ := hlast
        obtain ⟨rfl, rfl⟩ : front = [] ∧ c = d := by
          cases front <;> simp_all
        refine beq_eq_false_iff_ne.2 ?_
        rintro rfl
        exact absurd hd (by decide)
      cases ds <;> simp [tightenBreaks, hspace, hbreak]
    | cons d more =>
      have hmore : Shut (d :: more) := by
        obtain ⟨front, e, hcs, he⟩ := hlast
        cases front with
        | nil => simp at hcs
        | cons _ front => exact ⟨front, e, (List.cons.inj hcs).2, he⟩
      have hspace : (afterBreak && c == ' ') = false := by
        cases afterBreak with
        | false => rfl
        | true => simpa using hhead rfl
      have hnext : (d == '\n') = false := beq_eq_false_iff_ne.2 fun he => hb.2 (he ▸ .head _)
      have hrest := ih hmore hb.2 false (by simp)
      simp only [List.cons_append] at hrest ⊢
      rw [tightenBreaks, hnext, Bool.and_false, if_neg (by decide), hspace, if_neg (by decide), hbreak, hrest]

/-- What is left of a line behind a line feed: what is tight of it, and the space at its end if no line feed
follows. -/
theorem tightenBreaks_line {cs : List Char} (h : '\n' ∉ cs) :
    (∃ blanks, IsBlankText blanks ∧ tightenBreaks true (collapseBlanks false cs) = tightLine cs ++ blanks) ∧
      ∀ ds, tightenBreaks true (collapseBlanks false cs ++ '\n' :: ds) =
        tightLine cs ++ '\n' :: tightenBreaks true ds := by
  obtain ⟨front, back, hcs, hfront, hback, hnil⟩ := exists_collapseBlanks cs
  have hskip (ds : List Char) : ∃ afterBreak,
      tightenBreaks true (front ++ ds) = tightenBreaks afterBreak ds := by
    rcases hfront with rfl | rfl
    · exact ⟨true, rfl⟩
    · exact ⟨false, tightenBreaks_space ds⟩
  have hblank : IsBlankText back := by
    rcases hback with rfl | rfl <;> simp [IsBlankText, isWhite]
  have hend (ds : List Char) : tightenBreaks false (back ++ '\n' :: ds) = '\n' :: tightenBreaks true ds := by
    rcases hback with rfl | rfl
    · exact tightenBreaks_break false ds
    · simp [tightenBreaks, tightenBreaks_break]
  have hstay : tightenBreaks false back = back := tightenBreaks_of_not_mem (by rcases hback with rfl | rfl <;> simp)
  rw [hcs]
  obtain hempty | ⟨hshut, hhead⟩ := tightLine_cases cs
  · rw [hempty, hnil hempty, List.append_nil]
    refine ⟨?_, fun ds => ?_⟩
    · obtain ⟨afterBreak, hbreak⟩ := hskip []
      exact ⟨[], by simp [IsBlankText], by rw [hbreak, tightenBreaks]; rfl⟩
    · obtain ⟨afterBreak, hbreak⟩ := hskip ('\n' :: ds)
      rw [List.append_nil, hbreak, tightenBreaks_break, List.nil_append]
  · have happend (afterBreak : Bool) (ds : List Char) :=
      tightenBreaks_append hshut (not_mem_tightLine h) afterBreak (fun _ => hhead) ds
    refine ⟨⟨back, hblank, ?_⟩, fun ds => ?_⟩
    · obtain ⟨afterBreak, hbreak⟩ := hskip (tightLine cs ++ back)
      rw [hbreak, happend, hstay]
    · rw [List.append_assoc, List.append_assoc]
      obtain ⟨afterBreak, hbreak⟩ := hskip (tightLine cs ++ (back ++ '\n' :: ds))
      rw [hbreak, happend, hend]

/-- Behind a line feed, all lines of a text become tight, but for the end of the last. -/
theorem exists_tightenBreaks (cs : List Char) :
    ∃ blanks, IsBlankText blanks ∧ tightenBreaks true (collapseBlanks false cs) = tight cs ++ blanks := by
  induction cs using lines_induct with
  | line l hl =>
    rw [tight_of_not_mem hl]
    exact (tightenBreaks_line hl).1
  | more l rest hl ih =>
    obtain ⟨blanks, hblank, hrest⟩ := ih
    refine ⟨blanks, hblank, ?_⟩
    rw [collapseBlanks_append_cons rfl, (tightenBreaks_line hl).2, hrest, tight_append_break, tight_of_not_mem hl,
      List.append_assoc, List.cons_append]

/-- A normal text is what remains of the text when its lines have become tight and it is trimmed. -/
theorem normalizeText_eq (cs : List Char) : normalizeText cs = trim (tight cs) := by
  obtain ⟨blanks, hblank, hbreaks⟩ := exists_tightenBreaks cs
  have hcollapse : collapseBlanks false ('\n' :: cs) = '\n' :: collapseBlanks false cs := collapseBlanks_cons rfl false cs
  calc normalizeText cs
    _ = normalizeText ('\n' :: cs) := (normalizeText_break_cons cs).symm
    _ = trim ('\n' :: (tight cs ++ blanks)) := by rw [normalizeText, hcollapse, tightenBreaks_break, hbreaks]
    _ = trim (tight cs ++ blanks) := trim_blank_append (isBlankText_breaks 1) _
    _ = trim (tight cs) := trim_append_blank hblank _

/-! ## Gaps between texts -/

/-- The text ends with something else than white space. -/
def EndsVisibly (cs : List Char) : Prop := ∃ front c, cs = front ++ [c] ∧ isWhite c = false

/-- The text starts with something else than white space. -/
def StartsVisibly (cs : List Char) : Prop := ∃ c rest, cs = c :: rest ∧ isWhite c = false

theorem trimStart_append {cs : List Char} (h : EndsVisibly cs) (ds : List Char) :
    EndsVisibly (trimStart cs) ∧ trimStart (cs ++ ds) = trimStart cs ++ ds := by
  obtain ⟨front, c, rfl, hc⟩ := h
  have hends : EndsVisibly (trimStart (front ++ [c])) := by
    rw [trimStart, List.dropWhile_append, List.dropWhile_cons_of_neg (by simp [hc])]
    split
    · exact ⟨[], c, rfl, hc⟩
    · exact ⟨_, c, rfl, hc⟩
  refine ⟨hends, ?_⟩
  obtain ⟨x, d, hx, -⟩ := hends
  rw [trimStart] at hx
  rw [trimStart, List.dropWhile_append, if_neg (by simp [hx]), trimStart]

/-- What stands between two visible ends is not trimmed. -/
theorem trim_append {cs ds : List Char} (hcs : EndsVisibly cs) (hds : StartsVisibly ds) (middle : List Char) :
    trim (cs ++ (middle ++ ds)) = trim cs ++ (middle ++ trim ds) := by
  obtain ⟨hends, hstart⟩ := trimStart_append hcs (middle ++ ds)
  have hfront : trim cs = trimStart cs := by
    have hend := trimEnd_append_right hends []
    rwa [show trimEnd [] = [] from rfl, List.append_nil] at hend
  obtain ⟨c, rest, rfl, hc⟩ := hds
  have hback (xs : List Char) : trimEnd (xs ++ c :: rest) = xs ++ c :: trimEnd rest := by
    have hend := trimEnd_append_right ⟨xs, c, rfl, hc⟩ rest
    rwa [List.append_assoc, List.append_assoc, List.singleton_append, List.singleton_append] at hend
  have hlast : trim (c :: rest) = c :: trimEnd rest := by
    rw [trim, trimStart, List.dropWhile_cons_of_neg (by simp [hc])]
    exact hback []
  rw [trim, hstart, trimEnd_append_right hends, hback, hfront, hlast]

theorem tight_append_visible {c : Char} (hc : isWhite c = false) (cs : List Char) :
    ∃ front, tight (cs ++ [c]) = front ++ [c] := by
  have hblank := not_isBlank_of_not_isWhite hc
  have hbreak : '\n' ≠ c := by
    rintro rfl
    exact absurd hc (by decide)
  induction cs using lines_induct with
  | line l hl =>
    have hstrip : ∃ front, strip isBlank (l ++ [c]) = front ++ [c] := by
      have hend (xs : List Char) : dropEndWhile isBlank (xs ++ [c]) = xs ++ [c] := by
        simp [dropEndWhile, hblank]
      rw [strip, List.dropWhile_append, List.dropWhile_cons_of_neg (by simp [hblank])]
      split
      · exact ⟨[], hend []⟩
      · exact ⟨_, hend _⟩
    obtain ⟨front, hfront⟩ := hstrip
    rw [tight_of_not_mem (by simp [hl, hbreak]), tightLine, hfront, collapseBlanks_append_cons hblank]
    exact ⟨_, rfl⟩
  | more l rest hl ih =>
    obtain ⟨front, hfront⟩ := ih
    rw [List.append_assoc, List.cons_append, tight_append_break, hfront]
    exact ⟨_, (List.append_assoc _ ('\n' :: front) [c]).symm⟩

theorem tight_visible_cons {c : Char} (hc : isWhite c = false) (cs : List Char) :
    ∃ rest, tight (c :: cs) = c :: rest := by
  have hblank := not_isBlank_of_not_isWhite hc
  have hbreak : '\n' ≠ c := by
    rintro rfl
    exact absurd hc (by decide)
  have hline {l : List Char} (hl : '\n' ∉ l) : ∃ rest, tight (c :: l) = c :: rest := by
    obtain ⟨back, hback, hall⟩ := exists_dropEndWhile isBlank (c :: l)
    obtain ⟨rest, hrest⟩ : ∃ rest, dropEndWhile isBlank (c :: l) = c :: rest := by
      cases hd : dropEndWhile isBlank (c :: l) with
      | nil =>
        rw [hd, List.nil_append] at hback
        exact absurd (hall c (hback ▸ .head _)) (by simp [hblank])
      | cons d rest =>
        rw [hd, List.cons_append] at hback
        exact ⟨rest, by rw [(List.cons.inj hback).1]⟩
    rw [tight_of_not_mem (by simp [hl, hbreak]), tightLine, strip, List.dropWhile_cons_of_neg (by simp [hblank]), hrest,
      collapseBlanks_cons hblank]
    exact ⟨_, rfl⟩
  obtain hcs | ⟨l, rest, rfl, hl⟩ := line_cases cs
  · exact hline hcs
  · obtain ⟨more, hmore⟩ := hline hl
    rw [← List.cons_append, tight_append_break, hmore]
    exact ⟨_, rfl⟩

/-- Between two parts of a text that end and start visibly, a gap is left as its line feeds. -/
theorem normalizeText_gap {cs gap ds : List Char} (hcs : EndsVisibly cs) (hgap : IsGap gap) (hb : '\n' ∈ gap)
    (hds : StartsVisibly ds) :
    normalizeText (cs ++ (gap ++ ds)) =
      normalizeText cs ++ (List.replicate (gap.count '\n') '\n' ++ normalizeText ds) := by
  have hfront : EndsVisibly (tight cs) := by
    obtain ⟨front, c, rfl, hc⟩ := hcs
    obtain ⟨x, hx⟩ := tight_append_visible hc front
    exact ⟨x, c, hx, hc⟩
  have hback : StartsVisibly (tight ds) := by
    obtain ⟨c, rest, rfl, hc⟩ := hds
    obtain ⟨y, hy⟩ := tight_visible_cons hc rest
    exact ⟨c, y, hy, hc⟩
  rw [normalizeText_eq, tight_gap hgap hb, trim_append hfront hback, normalizeText_eq, normalizeText_eq]

/-- A text with something visible at one end is left with something visible at both. -/
theorem solid_normalizeText {cs : List Char} (h : EndsVisibly cs ∨ StartsVisibly cs) :
    Solid (normalizeText cs) := by
  obtain ⟨c, hmem, hc⟩ : ∃ c ∈ tight cs, isWhite c = false := by
    rcases h with ⟨front, c, rfl, hc⟩ | ⟨c, rest, rfl, hc⟩
    · obtain ⟨x, hx⟩ := tight_append_visible hc front
      exact ⟨c, by simp [hx], hc⟩
    · obtain ⟨y, hy⟩ := tight_visible_cons hc rest
      exact ⟨c, by simp [hy], hc⟩
  rw [normalizeText_eq]
  exact solid_trim_of_mem hmem hc

end Evomark.Text
