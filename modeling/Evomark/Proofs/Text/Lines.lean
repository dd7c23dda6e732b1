import Mathlib.Data.List.Chain
import Mathlib.Data.List.TakeWhile
import Evomark.Text.Normal
/-!
# Lines and white space

What white space a text has at its ends and at the ends of its lines is irrelevant for
`normalizeLines` (`normalizeLines_blank_append`, `normalizeLines_append_blank`), and so is the
indentation of its lines (`normalizeLines_indented`). What is left of a text starts and ends with
something else (`solid_normalizeLines`).
-/

namespace Evomark.Text

/-- Nothing but white space. -/
def IsBlankText (cs : List Char) : Prop := ∀ c ∈ cs, isWhite c = true

theorem isWhite_of_isBlank {c : Char} (h : isBlank c = true) : isWhite c = true := by
  simp only [isBlank, Bool.or_eq_true, beq_iff_eq] at h
  rcases h with rfl | rfl <;> rfl

theorem not_isBlank_of_not_isWhite {c : Char} (hc : isWhite c = false) : isBlank c = false :=
  Bool.eq_false_iff.2 fun hb => by simp [isWhite_of_isBlank hb] at hc

theorem isBlankText_breaks (n : Nat) : IsBlankText (List.replicate n '\n') := by
  intro c hc
  rw [List.eq_of_mem_replicate hc]
  rfl

/-- What a test finds of every character holds of every character. -/
theorem forall_mem_of_all {p : Char → Prop} [DecidablePred p] {cs : List Char}
    (h : cs.all (fun c => decide (p c)) = true) : ∀ c ∈ cs, p c :=
  fun c hc => of_decide_eq_true (List.all_eq_true.1 h c hc)

/-- What is taken from a text up to its first character that does not satisfy `p`. -/
theorem takeWhile_append_stop {p : Char → Bool} {text more : List Char} (h : ∀ c ∈ text, p c = true)
    (hmore : ∀ c, more.head? = some c → p c = false) :
    (text ++ more).takeWhile p = text ∧ (text ++ more).dropWhile p = more := by
  rw [List.takeWhile_append_of_pos h, List.dropWhile_append_of_pos h]
  cases more with
  | nil => simp
  | cons c rest => simp [hmore c rfl]

/-! ## Stripping -/

/-- A text without the characters satisfying `p` at either end. -/
def strip (p : Char → Bool) (cs : List Char) : List Char := dropEndWhile p (cs.dropWhile p)

section

variable {p : Char → Bool} {ws : List Char}

theorem dropEndWhile_append_of_pos (h : ∀ c ∈ ws, p c = true) (cs : List Char) :
    dropEndWhile p (cs ++ ws) = dropEndWhile p cs := by
  unfold dropEndWhile
  rw [List.reverse_append, List.dropWhile_append_of_pos]
  exact fun c hc => h c (List.mem_reverse.1 hc)

theorem strip_append_left (h : ∀ c ∈ ws, p c = true) (cs : List Char) : strip p (ws ++ cs) = strip p cs := by
  rw [strip, List.dropWhile_append_of_pos h, strip]

theorem strip_append_right (h : ∀ c ∈ ws, p c = true) (cs : List Char) : strip p (cs ++ ws) = strip p cs := by
  unfold strip
  rw [List.dropWhile_append]
  split
  · rename_i hcs
    rw [List.isEmpty_iff.1 hcs, ← List.nil_append (ws.dropWhile p),
      dropEndWhile_append_of_pos fun c hc => h c ((List.dropWhile_suffix p).mem hc)]
  · exact dropEndWhile_append_of_pos h _

theorem dropWhile_cases (cs : List Char) :
    cs.dropWhile p = [] ∨ ∃ c rest, cs.dropWhile p = c :: rest ∧ p c = false := by
  have h := List.head?_dropWhile_not p cs
  cases hc : cs.dropWhile p with
  | nil => exact .inl rfl
  | cons c rest =>
    rw [hc] at h
    exact .inr ⟨c, rest, rfl, by simpa using h⟩

theorem dropEndWhile_cases (cs : List Char) :
    dropEndWhile p cs = [] ∨ ∃ front c, dropEndWhile p cs = front ++ [c] ∧ p c = false := by
  unfold dropEndWhile
  obtain h | ⟨c, rest, h, hc⟩ := @dropWhile_cases p cs.reverse
  · rw [h]
    exact .inl rfl
  · rw [h, List.reverse_cons]
    exact .inr ⟨_, c, rfl, hc⟩

theorem exists_dropEndWhile (p : Char → Bool) (cs : List Char) :
    ∃ back, cs = dropEndWhile p cs ++ back ∧ ∀ c ∈ back, p c = true := by
  refine ⟨(cs.reverse.takeWhile p).reverse, ?_, fun c hc => List.mem_takeWhile_imp (List.mem_reverse.1 hc)⟩
  rw [dropEndWhile, ← List.reverse_append, List.takeWhile_append_dropWhile, List.reverse_reverse]

/-- A text is what is left of it between what is stripped. -/
theorem exists_strip (p : Char → Bool) (cs : List Char) :
    ∃ front back, cs = front ++ (strip p cs ++ back) ∧ (∀ c ∈ front, p c = true) ∧ ∀ c ∈ back, p c = true := by
  obtain ⟨back, hback, hp⟩ := exists_dropEndWhile p (cs.dropWhile p)
  refine ⟨cs.takeWhile p, back, ?_, fun c hc => List.mem_takeWhile_imp hc, hp⟩
  rw [strip, ← hback, List.takeWhile_append_dropWhile]

/-- What is left starts and ends with a character that is not stripped. -/
theorem strip_cases (cs : List Char) :
    strip p cs = [] ∨ (∃ c rest, strip p cs = c :: rest ∧ p c = false) ∧
      ∃ front c, strip p cs = front ++ [c] ∧ p c = false := by
  obtain hnil | ⟨front, last, hs, hlast⟩ := @dropEndWhile_cases p (cs.dropWhile p)
  · exact .inl hnil
  refine .inr ⟨?_, front, last, hs, hlast⟩
  obtain ⟨back, hback, -⟩ := exists_dropEndWhile p (cs.dropWhile p)
  rw [hs] at hback
  rw [strip, hs]
  obtain hnil | ⟨c, rest, hcons, hc⟩ := @dropWhile_cases p cs
  · rw [hnil] at hback
    simp at hback
  · rw [hcons] at hback
    cases front with
    | nil => exact ⟨last, [], rfl, by rw [← (List.cons.inj hback).1]; exact hc⟩
    | cons d more => exact ⟨d, _, rfl, by rw [← (List.cons.inj hback).1]; exact hc⟩

end

/-! ## Trimming -/

theorem trimEnd_append_blank {ws : List Char} (h : IsBlankText ws) (cs : List Char) :
    trimEnd (cs ++ ws) = trimEnd cs := dropEndWhile_append_of_pos h cs

theorem trimEnd_blank {ws : List Char} (h : IsBlankText ws) : trimEnd ws = [] := by
  simpa [trimEnd, dropEndWhile] using trimEnd_append_blank h []

theorem trim_blank_append {ws : List Char} (h : IsBlankText ws) (cs : List Char) :
    trim (ws ++ cs) = trim cs := strip_append_left h cs

theorem trim_append_blank {ws : List Char} (h : IsBlankText ws) (cs : List Char) :
    trim (cs ++ ws) = trim cs := strip_append_right h cs

/-- The white space at the end of a text is no part of what is left of it. -/
theorem trim_congr {cs ds : List Char} (h : trimEnd cs = trimEnd ds) : trim cs = trim ds := by
  have htrim (cs : List Char) : trim cs = trim (trimEnd cs) := by
    obtain ⟨back, hback, hall⟩ := exists_dropEndWhile isWhite cs
    conv_lhs => rw [hback]
    exact trim_append_blank hall _
  rw [htrim cs, h, htrim ds]

theorem trimEnd_append_congr (front : List Char) {cs ds : List Char} (h : trimEnd cs = trimEnd ds) :
    trimEnd (front ++ cs) = trimEnd (front ++ ds) := by
  have htrim (cs : List Char) : trimEnd (front ++ cs) = trimEnd (front ++ trimEnd cs) := by
    obtain ⟨back, hback, hall⟩ := exists_dropEndWhile isWhite cs
    conv_lhs => rw [hback, ← List.append_assoc]
    exact trimEnd_append_blank hall _
  rw [htrim cs, h, htrim ds]

/-- A text that starts and ends with something else than white space. -/
structure Solid (cs : List Char) : Prop where
  head : ∃ c rest, cs = c :: rest ∧ isWhite c = false
  last : ∃ front c, cs = front ++ [c] ∧ isWhite c = false

/-- White space behind a text that does not end in white space is all that is trimmed of what follows
it. -/
theorem trimEnd_append_right {cs : List Char} (h : ∃ front c, cs = front ++ [c] ∧ isWhite c = false)
    (ds : List Char) : trimEnd (cs ++ ds) = cs ++ trimEnd ds := by
  obtain ⟨front, c, rfl, hc⟩ := h
  unfold trimEnd dropEndWhile
  rw [List.reverse_append, List.dropWhile_append]
  split
  · rename_i hds
    rw [List.isEmpty_iff.1 hds, List.reverse_append, List.reverse_singleton, List.singleton_append,
      List.dropWhile_cons_of_neg (by simp [hc])]
    simp
  · simp

theorem prefix_trimEnd (cs : List Char) : trimEnd cs <+: cs := by
  rw [trimEnd, dropEndWhile, ← List.reverse_suffix, List.reverse_reverse]
  exact List.dropWhile_suffix _

theorem solid_trim {cs : List Char} (h : trim cs ≠ []) : Solid (trim cs) :=
  have hends := (strip_cases cs).resolve_left h
  ⟨hends.1, hends.2⟩

/-- A text with something visible in it is not trimmed away. -/
theorem solid_trim_of_mem {cs : List Char} {c : Char} (hmem : c ∈ cs) (hc : isWhite c = false) : Solid (trim cs) := by
  refine solid_trim fun hnil => ?_
  obtain ⟨front, back, hcs, hfront, hback⟩ := exists_strip isWhite cs
  rw [hcs, show strip isWhite cs = [] from hnil, List.nil_append, List.mem_append] at hmem
  rcases hmem with hmem | hmem
  · exact absurd (hfront c hmem) (by simp [hc])
  · exact absurd (hback c hmem) (by simp [hc])

namespace Solid

variable {cs ds : List Char}

theorem ne_nil (h : Solid cs) : cs ≠ [] := by
  obtain ⟨c, rest, rfl, -⟩ := h.head
  simp

theorem trimStart_append (h : Solid cs) (ds : List Char) : trimStart (cs ++ ds) = cs ++ ds := by
  obtain ⟨c, rest, rfl, hc⟩ := h.head
  rw [List.cons_append, trimStart, List.dropWhile_cons_of_neg (by simp [hc])]

theorem trimEnd_append (h : Solid cs) (ds : List Char) : trimEnd (ds ++ cs) = ds ++ cs := by
  obtain ⟨front, c, rfl, hc⟩ := h.last
  rw [trimEnd, dropEndWhile, ← List.append_assoc, List.reverse_append, List.reverse_singleton,
    List.singleton_append, List.dropWhile_cons_of_neg (by simp [hc])]
  simp

theorem trim_eq (h : Solid cs) : trim cs = cs := by
  have hs := h.trimStart_append []
  rw [List.append_nil] at hs
  rw [trim, hs]
  exact h.trimEnd_append []

theorem append (h : Solid cs) (middle : List Char) (h' : Solid ds) : Solid (cs ++ middle ++ ds) := by
  obtain ⟨c, rest, rfl, hc⟩ := h.head
  obtain ⟨front, d, rfl, hd⟩ := h'.last
  exact ⟨⟨c, rest ++ middle ++ (front ++ [d]), by simp, hc⟩, ⟨c :: rest ++ middle ++ front, d, by simp, hd⟩⟩

end Solid

/-! ## Lines -/

/-- What is left of the lines of a text when each is trimmed and the empty ones are dropped. -/
def lines (cs : List Char) : List (List Char) := ((splitLines cs).map trim).filter (!·.isEmpty)

theorem normalizeLines_eq (cs : List Char) : normalizeLines cs = joinLines (lines cs) := rfl

theorem exists_splitLines (cs : List Char) : ∃ first more, splitLines cs = first :: more :=
  List.exists_cons_of_ne_nil (splitLines_ne_nil cs)

theorem splitLines_cons {c : Char} {cs first : List Char} {more : List (List Char)} (hc : c ≠ '\n')
    (h : splitLines cs = first :: more) : splitLines (c :: cs) = (c :: first) :: more := by
  rw [splitLines, if_neg hc, h]

theorem splitLines_of_not_mem {cs : List Char} (h : '\n' ∉ cs) : splitLines cs = [cs] := by
  induction cs with
  | nil => rfl
  | cons c rest ih =>
    rw [List.mem_cons, not_or] at h
    exact splitLines_cons (Ne.symm h.1) (ih h.2)

theorem splitLines_append_break (cs ds : List Char) :
    splitLines (cs ++ '\n' :: ds) = splitLines cs ++ splitLines ds := by
  induction cs with
  | nil => simp [splitLines]
  | cons c rest ih =>
    obtain ⟨first, more, h⟩ := exists_splitLines rest
    by_cases hc : c = '\n'
    · rw [hc, List.cons_append, splitLines, if_pos rfl, ih, splitLines, if_pos rfl, List.cons_append]
    · rw [splitLines_cons hc h]
      rw [h] at ih
      exact splitLines_cons hc ih

theorem splitLines_joinLines {ls : List (List Char)} (hne : ls ≠ []) (h : ∀ line ∈ ls, '\n' ∉ line) :
    splitLines (joinLines ls) = ls := by
  induction ls with
  | nil => exact absurd rfl hne
  | cons line more ih =>
    rw [List.forall_mem_cons] at h
    cases more with
    | nil => exact splitLines_of_not_mem h.1
    | cons next more =>
      show splitLines (line ++ ['\n'] ++ joinLines (next :: more)) = _
      rw [List.append_assoc, List.singleton_append, splitLines_append_break, ih (by simp) h.2,
        splitLines_of_not_mem h.1, List.singleton_append]

theorem joinLines_append {ls ms : List (List Char)} (hl : ls ≠ []) (hm : ms ≠ []) :
    joinLines (ls ++ ms) = joinLines ls ++ '\n' :: joinLines ms := by
  induction ls with
  | nil => exact absurd rfl hl
  | cons line more ih =>
    cases more with
    | nil =>
      obtain ⟨first, rest, rfl⟩ := List.exists_cons_of_ne_nil hm
      exact List.append_assoc ..
    | cons next more =>
      have hjoin (ls : List (List Char)) : joinLines (line :: next :: ls) = line ++ '\n' :: joinLines (next :: ls) :=
        List.append_assoc ..
      rw [List.cons_append, List.cons_append, hjoin, hjoin, ← List.cons_append, ih (by simp), List.append_assoc]
      rfl

/-- A text is a line, or a line with other lines behind it. -/
theorem line_cases (cs : List Char) :
    '\n' ∉ cs ∨ ∃ line rest, cs = line ++ '\n' :: rest ∧ '\n' ∉ line := by
  by_cases h : '\n' ∈ cs
  · exact .inr (List.eq_append_cons_of_mem h)
  · exact .inl h

/-- Induction over the lines of a text. -/
theorem lines_induct {motive : List Char → Prop} (line : ∀ l, '\n' ∉ l → motive l)
    (more : ∀ l rest, '\n' ∉ l → motive rest → motive (l ++ '\n' :: rest)) (cs : List Char) : motive cs := by
  induction hn : cs.length using Nat.strong_induction_on generalizing cs with
  | _ n ih =>
    obtain hcs | ⟨l, rest, rfl, hl⟩ := line_cases cs
    · exact line cs hcs
    · exact more l rest hl (ih rest.length (by rw [← hn]; simp; omega) rest rfl)

theorem lines_append_break (cs ds : List Char) : lines (cs ++ '\n' :: ds) = lines cs ++ lines ds := by
  rw [lines, splitLines_append_break, List.map_append, List.filter_append, lines, lines]

theorem lines_of_not_mem {cs : List Char} (h : '\n' ∉ cs) :
    lines cs = if trim cs = [] then [] else [trim cs] := by
  rw [lines, splitLines_of_not_mem h]
  by_cases ht : trim cs = [] <;> simp [ht]

theorem lines_visible {l : List Char} (hl : '\n' ∉ l) (hv : ∃ c ∈ l, isWhite c = false) : lines l = [trim l] := by
  obtain ⟨c, hmem, hc⟩ := hv
  rw [lines_of_not_mem hl, if_neg (solid_trim_of_mem hmem hc).ne_nil]

theorem lines_blank_append {ws : List Char} (h : IsBlankText ws) (cs : List Char) :
    lines (ws ++ cs) = lines cs := by
  induction ws with
  | nil => rfl
  | cons c rest ih =>
    have hrest : IsBlankText rest := fun d hd => h d (.tail _ hd)
    rw [← ih hrest, List.cons_append]
    by_cases hc : c = '\n'
    · rw [hc]
      exact lines_append_break [] _
    · obtain ⟨first, more, hf⟩ := exists_splitLines (rest ++ cs)
      have hblank : IsBlankText [c] := by simpa [IsBlankText] using h c (.head _)
      have ht : trim (c :: first) = trim first := trim_blank_append hblank first
      rw [lines, lines, splitLines_cons hc hf, hf, List.map_cons, List.map_cons, ht]

theorem lines_blank {ws : List Char} (h : IsBlankText ws) : lines ws = [] := by
  rw [← List.append_nil ws, lines_blank_append h]
  rfl

theorem lines_append_blank {ws : List Char} (h : IsBlankText ws) (cs : List Char) :
    lines (cs ++ ws) = lines cs := by
  induction cs using lines_induct with
  | line cs hcs =>
    obtain hws | ⟨blank, more, rfl, hblank⟩ := line_cases ws
    · have hmem : '\n' ∉ cs ++ ws := by simp [hcs, hws]
      rw [lines_of_not_mem hmem, lines_of_not_mem hcs, trim_append_blank h]
    · have hb : IsBlankText blank := fun c hc => h c (by simp [hc])
      have hm : IsBlankText more := fun c hc => h c (by simp [hc])
      have hmem : '\n' ∉ cs ++ blank := by simp [hcs, hblank]
      rw [← List.append_assoc, lines_append_break, lines_blank hm, lines_of_not_mem hmem,
        lines_of_not_mem hcs, trim_append_blank hb, List.append_nil]
  | more l rest hl ih => rw [List.append_assoc, List.cons_append, lines_append_break, lines_append_break, ih]

theorem normalizeLines_blank_append {ws : List Char} (h : IsBlankText ws) (cs : List Char) :
    normalizeLines (ws ++ cs) = normalizeLines cs := by
  rw [normalizeLines_eq, lines_blank_append h, normalizeLines_eq]

theorem normalizeLines_append_blank {ws : List Char} (h : IsBlankText ws) (cs : List Char) :
    normalizeLines (cs ++ ws) = normalizeLines cs := by
  rw [normalizeLines_eq, lines_append_blank h, normalizeLines_eq]

theorem normalizeLines_blank {ws : List Char} (h : IsBlankText ws) : normalizeLines ws = [] := by
  rw [normalizeLines_eq, lines_blank h]
  rfl

/-! ## Indentation -/

/-- A text whose lines after the first are indented. -/
def indented (indent cs : List Char) : List Char :=
  cs.flatMap fun c => if c = '\n' then '\n' :: indent else [c]

theorem indented_of_not_mem (indent : List Char) {cs : List Char} (h : '\n' ∉ cs) :
    indented indent cs = cs := by
  induction cs with
  | nil => rfl
  | cons c rest ih =>
    rw [List.mem_cons, not_or] at h
    rw [indented, List.flatMap_cons, if_neg (Ne.symm h.1), ← indented, ih h.2, List.singleton_append]

theorem indented_append_break (indent cs ds : List Char) :
    indented indent (cs ++ '\n' :: ds) = indented indent cs ++ '\n' :: (indent ++ indented indent ds) := by
  simp [indented]

theorem lines_indented {indent : List Char} (h : IsBlankText indent) (cs : List Char) :
    lines (indented indent cs) = lines cs := by
  induction cs using lines_induct with
  | line cs hcs => rw [indented_of_not_mem indent hcs]
  | more l rest hl ih =>
    rw [indented_append_break, indented_of_not_mem indent hl, lines_append_break, lines_blank_append h,
      lines_append_break, ih]

theorem normalizeLines_indented {indent : List Char} (h : IsBlankText indent) (cs : List Char) :
    normalizeLines (indented indent cs) = normalizeLines cs := by
  rw [normalizeLines_eq, lines_indented h, normalizeLines_eq]

/-! ## Normal texts -/

theorem not_mem_of_mem_splitLines {cs line : List Char} (h : line ∈ splitLines cs) : '\n' ∉ line := by
  induction cs generalizing line with
  | nil => simp [splitLines] at h; simp [h]
  | cons c rest ih =>
    obtain ⟨first, more, hf⟩ := exists_splitLines rest
    by_cases hc : c = '\n'
    · rw [hc, splitLines, if_pos rfl, List.mem_cons] at h
      rcases h with rfl | h
      · simp
      · exact ih h
    · rw [splitLines_cons hc hf, List.mem_cons] at h
      rw [hf] at ih
      rcases h with rfl | h
      · simpa [Ne.symm hc] using ih (List.mem_cons_self ..)
      · exact ih (.tail _ h)

theorem infix_trim (cs : List Char) : trim cs <:+: cs :=
  (prefix_trimEnd _).isInfix.trans (List.dropWhile_suffix _).isInfix

/-- What is left of a line is solid. -/
theorem solid_of_mem_lines {cs line : List Char} (h : line ∈ lines cs) : Solid line ∧ '\n' ∉ line := by
  simp only [lines, List.mem_filter, List.mem_map] at h
  obtain ⟨⟨raw, hraw, rfl⟩, hne⟩ := h
  refine ⟨solid_trim (by simpa using hne), fun hmem => not_mem_of_mem_splitLines hraw ?_⟩
  exact (infix_trim raw).subset hmem

theorem solid_joinLines {ls : List (List Char)} (hne : ls ≠ []) (h : ∀ line ∈ ls, Solid line) :
    Solid (joinLines ls) := by
  induction ls with
  | nil => exact absurd rfl hne
  | cons line more ih =>
    rw [List.forall_mem_cons] at h
    cases more with
    | nil => exact h.1
    | cons next more => exact h.1.append ['\n'] (ih (by simp) h.2)

theorem lines_joinLines {ls : List (List Char)} (h : ∀ line ∈ ls, Solid line ∧ '\n' ∉ line) :
    lines (joinLines ls) = ls := by
  cases ls with
  | nil => rfl
  | cons line more =>
    rw [lines, splitLines_joinLines (by simp) fun l hl => (h l hl).2]
    have hmap : (line :: more).map trim = line :: more := by
      rw [List.map_congr_left fun l hl => (h l hl).1.trim_eq, List.map_id']
    rw [hmap, List.filter_eq_self]
    intro l hl
    have := (h l hl).1.ne_nil
    simpa using this

theorem normalizeLines_normalizeLines (cs : List Char) :
    normalizeLines (normalizeLines cs) = normalizeLines cs := by
  rw [normalizeLines_eq cs, normalizeLines_eq, lines_joinLines fun _ => solid_of_mem_lines]

/-- What is left of a text is empty or solid. -/
theorem solid_normalizeLines {cs : List Char} (h : normalizeLines cs ≠ []) :
    Solid (normalizeLines cs) := by
  rw [normalizeLines_eq] at h ⊢
  refine solid_joinLines ?_ fun line hl => (solid_of_mem_lines hl).1
  intro he
  rw [he] at h
  exact h rfl

/-! ## Neighbours -/

theorem infix_of_mem_splitLines {cs line : List Char} (h : line ∈ splitLines cs) : line <:+: cs := by
  induction cs using lines_induct with
  | line cs hcs =>
    rw [splitLines_of_not_mem hcs, List.mem_singleton] at h
    exact h ▸ List.infix_rfl
  | more l rest hl ih =>
    rw [splitLines_append_break, splitLines_of_not_mem hl, List.singleton_append, List.mem_cons] at h
    rcases h with rfl | h
    · exact (List.prefix_append line _).isInfix
    · exact (ih h).trans ((List.suffix_cons _ rest).trans (List.suffix_append ..)).isInfix

theorem infix_of_mem_lines {cs line : List Char} (h : line ∈ lines cs) : line <:+: cs := by
  simp only [lines, List.mem_filter, List.mem_map] at h
  obtain ⟨⟨raw, hraw, rfl⟩, -⟩ := h
  exact (infix_trim raw).trans (infix_of_mem_splitLines hraw)

theorem mem_joinLines {ls : List (List Char)} {c : Char} (h : c ∈ joinLines ls) :
    c = '\n' ∨ ∃ line ∈ ls, c ∈ line := by
  induction ls with
  | nil => simp [joinLines, join] at h
  | cons line more ih =>
    cases more with
    | nil => exact .inr ⟨line, .head _, h⟩
    | cons next more =>
      have h : c ∈ line ++ ['\n'] ++ joinLines (next :: more) := h
      rw [List.mem_append, List.mem_append, List.mem_singleton] at h
      rcases h with (h | h) | h
      · exact .inr ⟨line, .head _, h⟩
      · exact .inl h
      · obtain h | ⟨l, hl, hc⟩ := ih h
        · exact .inl h
        · exact .inr ⟨l, .tail _ hl, hc⟩

theorem mem_normalizeLines {cs : List Char} {c : Char} (h : c ∈ normalizeLines cs) :
    c = '\n' ∨ c ∈ cs :=
  (mem_joinLines h).imp_right fun ⟨_, hl, hc⟩ => (infix_of_mem_lines hl).subset hc

variable {R : Char → Char → Prop}

/-- Neighbours in lines that are put together are neighbours in a line, or one is a line feed and the
other is not. -/
theorem isChain_joinLines {ls : List (List Char)} (hl : ∀ c, c ≠ '\n' → R c '\n')
    (hr : ∀ c, c ≠ '\n' → R '\n' c)
    (h : ∀ line ∈ ls, line.IsChain R ∧ line ≠ [] ∧ '\n' ∉ line) : (joinLines ls).IsChain R := by
  induction ls with
  | nil => exact .nil
  | cons line more ih =>
    rw [List.forall_mem_cons] at h
    cases more with
    | nil => exact h.1.1
    | cons next more =>
      show (line ++ ['\n'] ++ joinLines (next :: more)).IsChain R
      have hne : ∀ c ∈ line, c ≠ '\n' := fun c hc he => h.1.2.2 (he ▸ hc)
      rw [List.append_assoc, List.singleton_append, List.isChain_append, List.isChain_cons]
      refine ⟨h.1.1, ⟨fun c hc => hr c ?_, ih h.2⟩, fun c hc d hd => ?_⟩
      · obtain ⟨-, hnext, hmem⟩ := h.2 next (.head _)
        obtain ⟨e, rest, rfl⟩ := List.exists_cons_of_ne_nil hnext
        have : c = e := by
          cases more <;> simpa [joinLines, join, eq_comm] using hc
        rw [this]
        exact fun he => hmem (he ▸ .head _)
      · rw [List.head?_cons, Option.mem_some_iff] at hd
        rw [← hd]
        exact hl c (hne c (List.mem_of_mem_getLast? hc))

/-- Neighbours that remain when a text is normalized. -/
theorem isChain_normalizeLines {cs : List Char} (hl : ∀ c, c ≠ '\n' → R c '\n')
    (hr : ∀ c, c ≠ '\n' → R '\n' c) (h : cs.IsChain R) : (normalizeLines cs).IsChain R := by
  refine isChain_joinLines hl hr fun line hline => ?_
  obtain ⟨hs, hmem⟩ := solid_of_mem_lines hline
  have hchain := h.infix (infix_of_mem_lines hline)
  exact ⟨hchain, hs.ne_nil, hmem⟩

/-- A text that is normalized has no empty lines. -/
theorem isChain_break_normalizeLines (cs : List Char) :
    (normalizeLines cs).IsChain fun c d => ¬ (c = '\n' ∧ d = '\n') := by
  refine isChain_joinLines (fun c hc h => hc h.1) (fun c hc h => hc h.2) fun line hline => ?_
  obtain ⟨hs, hmem⟩ := solid_of_mem_lines hline
  refine ⟨(List.isChain_isInfix line).imp fun c d hi h => hmem ?_, hs.ne_nil, hmem⟩
  rw [← h.1]
  exact hi.subset (.head _)

theorem head?_indented (indent cs : List Char) : (indented indent cs).head? = cs.head? := by
  cases cs with
  | nil => rfl
  | cons c rest =>
    rw [indented, List.flatMap_cons]
    split
    · rename_i h
      simp [h]
    · simp

/-- Neighbours in a text whose lines are indented. -/
theorem isChain_indented {indent cs : List Char} (hi : ∀ c ∈ indent, ∀ d, R c d ∧ R d c)
    (h : cs.IsChain R) : (indented indent cs).IsChain R := by
  induction cs with
  | nil => exact .nil
  | cons c rest ih =>
    have hrest := (List.isChain_cons.1 h).1
    rw [indented, List.flatMap_cons, ← indented, List.isChain_append, head?_indented]
    refine ⟨?_, ih (List.isChain_cons.1 h).2, fun x hx y hy => ?_⟩
    · split
      · refine (List.isChain_isInfix _).imp_of_mem_tail_imp fun x y hx hy _ => ?_
        exact (hi y hy x).2
      · exact .singleton _
    · split at hx
      · rename_i hc
        cases hindent : indent.getLast? with
        | none =>
          rw [List.getLast?_eq_none_iff.1 hindent, List.getLast?_singleton, Option.mem_some_iff] at hx
          rw [← hx, ← hc]
          exact hrest y hy
        | some z =>
          rw [List.getLast?_cons, hindent, Option.getD_some, Option.mem_some_iff] at hx
          rw [← hx]
          exact (hi z (List.mem_of_mem_getLast? hindent) y).1
      · rw [List.getLast?_singleton, Option.mem_some_iff] at hx
        rw [← hx]
        exact hrest y hy

end Evomark.Text
