import Evomark.Proofs.Text.Visible
import Evomark.Proofs.Document.Printing
/-!
# White space around the lines of a text

White space around the lines of a text does not count when these are normalized. `Padded` says of two texts that one
is the other with white space put in there; then the same is left of both (`Padded.normalizeLines_eq`). Nothing else
is taken away: every text is what is left of it with white space put in again (`padded_normalizeLines`). So a
normalized text stands for all those that differ from it in their indentation, in what is behind their lines and in
their blank lines, and indenting it to print it does not make another text of it.

How the lines of a text end does not count either. A line ends with a line feed or with a carriage return and a line
feed, and the last one need not end at all (`endedLines`). But a carriage return at the end of a line is white space,
and if no line follows the last line feed, a blank one does no harm (`lines_eq_endedLines`). This is also why two texts
with a line feed between them are normalized each by itself (`linesNormalized_append_break`).
-/

namespace Evomark.Text

/-- The lines of a text. A carriage return before the line feed that ends a line is part of the line end; elsewhere it
is a character of its line. The last line need not have an end. -/
def endedLines : List Char → List (List Char)
  | [] => []
  | '\n' :: rest => [] :: endedLines rest
  | '\r' :: '\n' :: rest => [] :: endedLines rest
  | c :: rest =>
    match endedLines rest with
    | [] => [[c]]
    | line :: more => (c :: line) :: more

/-- The second text is the first with white space put in around its lines. What is put in may have line feeds in it,
which make blank lines. -/
inductive Padded : List Char → List Char → Prop
  | line {left line right : List Char} (hline : '\n' ∉ line) (hleft : IsBlankText left)
      (hright : IsBlankText right) : Padded line (left ++ (line ++ right))
  | more {left line right rest wide : List Char} (hline : '\n' ∉ line) (hleft : IsBlankText left)
      (hright : IsBlankText right) (h : Padded rest wide) :
      Padded (line ++ '\n' :: rest) (left ++ (line ++ right) ++ '\n' :: wide)

/-! ## Line ends -/

theorem endedLines_cons {c : Char} {cs : List Char} (hc : c ≠ '\n') (hcs : c = '\r' → cs.head? ≠ some '\n') :
    endedLines (c :: cs) = (c :: (endedLines cs).headD []) :: (endedLines cs).tail := by
  rw [endedLines]
  · cases endedLines cs <;> rfl
  · exact hc
  · rintro rest rfl rfl
    exact hcs rfl rfl

theorem endedLines_of_not_mem {cs : List Char} (h : '\n' ∉ cs) : endedLines cs = if cs = [] then [] else [cs] := by
  induction cs with
  | nil => rfl
  | cons c rest ih =>
    rw [List.mem_cons, not_or] at h
    have hrest : rest.head? ≠ some '\n' := fun he => h.2 (List.mem_of_mem_head? he)
    rw [endedLines_cons (Ne.symm h.1) fun _ => hrest, ih h.2]
    cases rest <;> rfl

/-- A line that has an end is what stands before the line feed, but for a carriage return. -/
theorem endedLines_append_break {cs : List Char} (h : '\n' ∉ cs) (ds : List Char) :
    ∃ line ws, cs = line ++ ws ∧ IsBlankText ws ∧ endedLines (cs ++ '\n' :: ds) = line :: endedLines ds := by
  induction cs with
  | nil => exact ⟨[], [], rfl, by simp [IsBlankText], rfl⟩
  | cons c rest ih =>
    rw [List.mem_cons, not_or] at h
    -- only right before the line feed is a carriage return part of the line end
    by_cases hc : c = '\r' ∧ rest = []
    · obtain ⟨rfl, rfl⟩ := hc
      exact ⟨[], ['\r'], rfl, by simp [IsBlankText, isWhite], rfl⟩
    · obtain ⟨line, ws, hrest, hws, hlines⟩ := ih h.2
      have hnext : c = '\r' → (rest ++ '\n' :: ds).head? ≠ some '\n' := by
        intro hr he
        obtain ⟨d, more, rfl⟩ := List.exists_cons_of_ne_nil fun hnil => hc ⟨hr, hnil⟩
        exact h.2 (Option.some.inj he ▸ .head _)
      refine ⟨c :: line, ws, by rw [hrest]; rfl, hws, ?_⟩
      rw [List.cons_append, endedLines_cons (Ne.symm h.1) hnext, hlines]
      rfl

/-- What is left of the lines of a text does not depend on how they end. -/
theorem lines_eq_endedLines (cs : List Char) : lines cs = ((endedLines cs).map trim).filter (!·.isEmpty) := by
  induction cs using lines_induct with
  | line l hl =>
    rw [lines_of_not_mem hl, endedLines_of_not_mem hl]
    by_cases hnil : l = []
    · subst hnil
      rfl
    · by_cases ht : trim l = [] <;> simp [hnil, ht]
  | more l rest hl ih =>
    obtain ⟨line, ws, rfl, hws, hlines⟩ := endedLines_append_break hl rest
    have hline : '\n' ∉ line := fun hmem => hl (List.mem_append_left _ hmem)
    rw [lines_append_break, lines_append_blank hws, lines_of_not_mem hline, hlines, List.map_cons, ih]
    by_cases ht : trim line = [] <;> simp [ht]

/-! ## Two texts -/

theorem normalizeLines_of_not_mem {cs : List Char} (h : '\n' ∉ cs) : normalizeLines cs = trim cs := by
  rw [normalizeLines_eq, lines_of_not_mem h]
  by_cases ht : trim cs = [] <;> simp [ht, joinLines, join]

/-- A text of which nothing is left is white space. -/
theorem isBlankText_of_normalizeLines {cs : List Char} (h : normalizeLines cs = []) : IsBlankText cs := by
  have hvisible : visible cs = [] := by rw [← visible_normalizeLines, h, visible_nil]
  intro c hc
  simpa using List.filter_eq_nil_iff.1 hvisible c hc

section

variable {cs ds : List Char}

theorem isBlankText_append_break (h : normalizeLines cs = []) : IsBlankText (cs ++ ['\n']) :=
  List.forall_mem_append.2 ⟨isBlankText_of_normalizeLines h, isBlankText_breaks 1⟩

theorem isBlankText_break_append (h : normalizeLines ds = []) : IsBlankText ('\n' :: ds) :=
  List.forall_mem_append.2 ⟨isBlankText_breaks 1, isBlankText_of_normalizeLines h⟩

theorem normalizeLines_append_break_of_ne_nil (hcs : normalizeLines cs ≠ []) (hds : normalizeLines ds ≠ []) :
    normalizeLines (cs ++ '\n' :: ds) = normalizeLines cs ++ '\n' :: normalizeLines ds := by
  have hlines {es : List Char} (h : normalizeLines es ≠ []) : lines es ≠ [] := by
    intro hnil
    rw [normalizeLines_eq, hnil] at h
    exact h rfl
  rw [normalizeLines_eq, lines_append_break, joinLines_append (hlines hcs) (hlines hds)]
  rfl

end

/-- What is left of two texts with a line feed between them is what is left of each. The line feed stays if something
is left of both. -/
theorem linesNormalized_append_break (a b : String) :
    linesNormalized (a ++ "\n" ++ b) =
      "\n".intercalate ([linesNormalized a, linesNormalized b].filter (· ≠ "")) := by
  have htext : (a ++ "\n" ++ b).toList = a.toList ++ '\n' :: b.toList := by simp
  rw [linesNormalized, htext]
  by_cases ha : normalizeLines a.toList = []
  · rw [List.append_cons, normalizeLines_blank_append (isBlankText_append_break ha)]
    by_cases hb : normalizeLines b.toList = [] <;> simp [linesNormalized, ha, hb]
  by_cases hb : normalizeLines b.toList = []
  · rw [normalizeLines_append_blank (isBlankText_break_append hb)]
    simp [linesNormalized, ha, hb]
  · rw [normalizeLines_append_break_of_ne_nil ha hb]
    simp [linesNormalized, ha, hb, String.append_assoc]

/-! ## Padding -/

namespace Padded

variable {text wide ws : List Char}

theorem lines_eq (h : Padded text wide) : lines wide = lines text := by
  induction h with
  | line _ hleft hright => rw [lines_blank_append hleft, lines_append_blank hright]
  | more _ hleft hright _ ih =>
    rw [lines_append_break, lines_blank_append hleft, lines_append_blank hright, ih, lines_append_break]

/-- The same is left of a text when white space is put in around its lines. -/
theorem normalizeLines_eq (h : Padded text wide) : normalizeLines wide = normalizeLines text := by
  rw [Text.normalizeLines_eq, h.lines_eq, Text.normalizeLines_eq]

theorem blank_append (hws : IsBlankText ws) (h : Padded text wide) : Padded text (ws ++ wide) := by
  cases h with
  | line hline hleft hright =>
    rw [← List.append_assoc]
    exact .line hline (List.forall_mem_append.2 ⟨hws, hleft⟩) hright
  | more hline hleft hright h =>
    rw [← List.append_assoc, ← List.append_assoc]
    exact .more hline (List.forall_mem_append.2 ⟨hws, hleft⟩) hright h

theorem append_blank (h : Padded text wide) (hws : IsBlankText ws) : Padded text (wide ++ ws) := by
  induction h with
  | line hline hleft hright =>
    rw [List.append_assoc, List.append_assoc]
    exact .line hline hleft (List.forall_mem_append.2 ⟨hright, hws⟩)
  | more hline hleft hright _ ih =>
    rw [List.append_assoc, List.cons_append]
    exact .more hline hleft hright ih

end Padded

theorem exists_padding {l : List Char} (hl : '\n' ∉ l) :
    ∃ left line right, l = left ++ (line ++ right) ∧ normalizeLines l = line ∧ '\n' ∉ line ∧
      IsBlankText left ∧ IsBlankText right := by
  obtain ⟨left, right, hcut, hleft, hright⟩ := exists_strip isWhite l
  exact ⟨left, trim l, right, hcut, normalizeLines_of_not_mem hl, fun hmem => hl ((infix_trim l).subset hmem), hleft,
    hright⟩

/-- Every text is what is left of it with white space put in around the lines. A line of which nothing is left is
white space in front of the next one, or behind the last one. -/
theorem padded_normalizeLines (cs : List Char) : Padded (normalizeLines cs) cs := by
  induction cs using lines_induct with
  | line l hl =>
    obtain ⟨left, line, right, rfl, hnormal, hline, hleft, hright⟩ := exists_padding hl
    rw [hnormal]
    exact .line hline hleft hright
  | more l rest hl ih =>
    by_cases hblank : normalizeLines l = []
    · have hws := isBlankText_append_break hblank
      rw [List.append_cons, normalizeLines_blank_append hws]
      exact ih.blank_append hws
    obtain ⟨left, line, right, rfl, hnormal, hline, hleft, hright⟩ := exists_padding hl
    by_cases hrest : normalizeLines rest = []
    · have hws := isBlankText_break_append hrest
      rw [normalizeLines_append_blank hws, hnormal]
      exact (Padded.line hline hleft hright).append_blank hws
    · rw [normalizeLines_append_break_of_ne_nil hblank hrest, hnormal]
      exact .more hline hleft hright ih

/-- Two texts have the same normal form if they differ in the white space around their lines only. -/
theorem normalizeLines_eq_iff {cs ds : List Char} :
    normalizeLines cs = normalizeLines ds ↔ ∃ text, Padded text cs ∧ Padded text ds := by
  refine ⟨fun h => ⟨normalizeLines cs, padded_normalizeLines cs, h ▸ padded_normalizeLines ds⟩, ?_⟩
  rintro ⟨text, hcs, hds⟩
  rw [hcs.normalizeLines_eq, hds.normalizeLines_eq]

/-- A text with its lines normalized stays the same when they are normalized once more. With a line feed between two
texts each is normalized by itself, and the line feed stays if something is left of both. A line feed ends a line, with
or without a carriage return in front of it, and need not end the last one. A text is what is left of it with white
space put in around the lines, and the same is left of two texts that differ in such white space only; one of these is
a text as it is printed with its lines indented. -/
theorem linesNormalized_canonical (a b : String) :
    linesNormalized (linesNormalized a) = linesNormalized a ∧
    linesNormalized (a ++ "\n" ++ b) =
      "\n".intercalate ([linesNormalized a, linesNormalized b].filter (· ≠ "")) ∧
    (linesNormalized a).toList = joinLines (((endedLines a.toList).map trim).filter (!·.isEmpty)) ∧
    Padded (linesNormalized a).toList a.toList ∧
    (linesNormalized a = linesNormalized b ↔ ∃ text, Padded text a.toList ∧ Padded text b.toList) ∧
    ∀ indent : List Char, IsBlankText indent →
      linesNormalized (String.ofList (Ink.putLines indent a.toList []).reverse) = linesNormalized a := by
  have hnormal : (linesNormalized a).toList = normalizeLines a.toList := String.toList_ofList
  refine ⟨?_, linesNormalized_append_break a b, ?_, ?_, ?_, fun indent h => ?_⟩
  · rw [linesNormalized, hnormal, normalizeLines_normalizeLines, linesNormalized]
  · rw [hnormal, normalizeLines_eq, lines_eq_endedLines]
  · rw [hnormal]
    exact padded_normalizeLines a.toList
  · rw [linesNormalized, linesNormalized, String.ofList_inj, normalizeLines_eq_iff]
  · rw [putLines_eq, List.append_nil, List.reverse_reverse, linesNormalized, String.toList_ofList,
      normalizeLines_indented h, linesNormalized]

/-- Around the lines of a text, the second of which has a carriage return in it, there may be white space of any kind,
line ends with carriage returns and blank lines. -/
theorem linesNormalized_canonical_returns :
    (∃ text, Padded text "\t a\u00a0\r\n \r\nb\rc\r\n".toList ∧ Padded text "a\n\n\u3000b\rc".toList) ∧
    linesNormalized "\t a\u00a0\r\n \r\nb\rc\r\n" = linesNormalized "a\n\n\u3000b\rc" ∧
    IsBlankText ['\u3000'] ∧
    linesNormalized (String.ofList (Ink.putLines ['\u3000'] "a\nb\rc".toList []).reverse) =
      linesNormalized "a\nb\rc" := by
  have hreturns : Padded "a\nb\rc".toList "\t a\u00a0\r\n \r\nb\rc\r\n".toList := by
    have hlast : Padded ['b', '\r', 'c'] ([] ++ (['b', '\r', 'c'] ++ ['\r', '\n'])) :=
      .line (by decide) (List.all_eq_true.1 rfl) (List.all_eq_true.1 rfl)
    exact @Padded.more ['\t', ' '] ['a'] ['\u00a0', '\r', '\n', ' ', '\r'] _ _ (by decide)
      (List.all_eq_true.1 rfl) (List.all_eq_true.1 rfl) hlast
  have hblank : Padded "a\nb\rc".toList "a\n\n\u3000b\rc".toList := by
    have hlast : Padded ['b', '\r', 'c'] (['\u3000'] ++ (['b', '\r', 'c'] ++ [])) :=
      .line (by decide) (List.all_eq_true.1 rfl) (List.all_eq_true.1 rfl)
    exact @Padded.more [] ['a'] ['\n'] _ _ (by decide) (List.all_eq_true.1 rfl) (List.all_eq_true.1 rfl) hlast
  have hindent : IsBlankText ['\u3000'] := List.all_eq_true.1 rfl
  exact ⟨⟨_, hreturns, hblank⟩, (linesNormalized_canonical _ _).2.2.2.2.1.2 ⟨_, hreturns, hblank⟩, hindent,
    (linesNormalized_canonical "a\nb\rc" "").2.2.2.2.2 ['\u3000'] hindent⟩

/-- A carriage return ends no line, and it goes only at the ends of a line. -/
example : linesNormalized "\u2003a\r\n\r\n\tb\rc\u0085\r" = "a\nb\rc" := by decide +kernel

end Evomark.Text
