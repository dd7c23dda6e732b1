import Evomark.Proofs.Text.Lines
/-!
# Paragraphs

Two or more line feeds in a row separate the stretches of a text. `Stretched` says which these are,
and `stretches` finds them (`stretched_iff`). What is left of a stretch when its lines are normalized is a
paragraph, if it is not empty; paragraphs that are put together with a blank line between any two are
the paragraphs of that text again (`paragraphs_putParagraphs`).
-/

namespace Evomark.Text

/-- A text without two line feeds in a row. -/
def Unbroken (cs : List Char) : Prop := cs.IsChain fun c d => ¬ (c = '\n' ∧ d = '\n')

/-- The stretches of a text: what stands before, between and behind its runs of two or more line
feeds, which are as long as they can be. -/
inductive Stretched : List Char → List (List Char) → Prop
  | last {s : List Char} (hs : Unbroken s) : Stretched s [s]
  | run {s rest : List Char} {ss : List (List Char)} (n : Nat) (hs : Unbroken s) (hlast : s.getLast? ≠ some '\n')
      (hhead : rest.head? ≠ some '\n') (h : Stretched rest ss) :
      Stretched (s ++ (List.replicate (n + 2) '\n' ++ rest)) (s :: ss)

/-- The stretches of a text between its runs of two or more line feeds. -/
def stretches : List Char → List (List Char)
  | [] => [[]]
  | c :: rest =>
    if c = '\n' ∧ rest.head? = some '\n' then [] :: stretches (rest.dropWhile (· == '\n'))
    else match stretches rest with
      | s :: ss => (c :: s) :: ss
      | [] => [[c]]
termination_by cs => cs.length
decreasing_by
  · exact Nat.lt_succ_of_le (List.dropWhile_suffix _).length_le
  · exact Nat.lt_succ_self _

/-- What is left of stretches: their normalized lines, where there are any. -/
def normalized (ss : List (List Char)) : List (List Char) := (ss.map normalizeLines).filter (!·.isEmpty)

/-- The paragraphs of a text. -/
def paragraphs (cs : List Char) : List (List Char) := normalized (stretches cs)

/-! ## Stretches -/

/-- The line feeds a text starts with, and what follows them. -/
theorem exists_breaks (cs : List Char) :
    ∃ n ds, cs = List.replicate n '\n' ++ ds ∧ ds.head? ≠ some '\n' := by
  induction cs with
  | nil => exact ⟨0, [], rfl, by simp⟩
  | cons c rest ih =>
    by_cases hc : c = '\n'
    · obtain ⟨n, ds, rfl, hds⟩ := ih
      exact ⟨n + 1, ds, by rw [hc]; rfl, hds⟩
    · exact ⟨0, c :: rest, rfl, by simpa using hc⟩

theorem dropWhile_breaks (n : Nat) {cs : List Char} (h : cs.head? ≠ some '\n') :
    (List.replicate n '\n' ++ cs).dropWhile (· == '\n') = cs := by
  refine (takeWhile_append_stop (fun c hc => by simp [List.eq_of_mem_replicate hc]) fun c hc => ?_).2
  refine beq_eq_false_iff_ne.2 ?_
  rintro rfl
  exact h hc

theorem Stretched.cons {c : Char} {rest s : List Char} {ss : List (List Char)}
    (h : Stretched rest (s :: ss)) (hc : ¬ (c = '\n' ∧ rest.head? = some '\n')) :
    Stretched (c :: rest) ((c :: s) :: ss) := by
  have hcons {s more : List Char} (hs : Unbroken s) (hc : ¬ (c = '\n' ∧ (s ++ more).head? = some '\n')) :
      Unbroken (c :: s) := by
    refine List.isChain_cons.2 ⟨fun d hd h => hc ⟨h.1, ?_⟩, hs⟩
    rw [List.head?_append, hd, h.2]
    rfl
  cases h with
  | last hs => exact .last (@hcons _ [] hs (by rwa [List.append_nil]))
  | @run _ rest _ n hs hlast hhead h =>
    refine .run n (hcons hs hc) ?_ hhead h
    cases s with
    | nil => exact fun he => hc ⟨by simpa using he, rfl⟩
    | cons d more => rwa [List.getLast?_cons_cons]

theorem exists_stretches (cs : List Char) : ∃ s ss, stretches cs = s :: ss := by
  unfold stretches
  repeat' split
  all_goals exact ⟨_, _, rfl⟩

theorem stretched_stretches (cs : List Char) : Stretched cs (stretches cs) := by
  fun_induction stretches cs with
  | case1 => exact .last .nil
  | case2 c rest h ih =>
    obtain ⟨rfl, hrest⟩ := h
    obtain ⟨more, rfl⟩ := List.head?_eq_some_iff.1 hrest
    obtain ⟨n, rest, rfl, hhead⟩ := exists_breaks more
    have hdrop : ('\n' :: (List.replicate n '\n' ++ rest)).dropWhile (· == '\n') = rest :=
      dropWhile_breaks (n + 1) hhead
    rw [hdrop] at ih ⊢
    exact .run n .nil (by simp) hhead ih
  | case3 c rest h s ss hs ih => exact (hs ▸ ih).cons h
  | case4 c rest h hs ih =>
    obtain ⟨s, ss, he⟩ := exists_stretches rest
    rw [hs] at he
    cases he

theorem stretches_cons {c : Char} {rest s : List Char} {ss : List (List Char)}
    (hc : ¬ (c = '\n' ∧ rest.head? = some '\n')) (h : stretches rest = s :: ss) :
    stretches (c :: rest) = (c :: s) :: ss := by
  rw [stretches, if_neg hc, h]

theorem stretches_run (n : Nat) {rest : List Char} (hhead : rest.head? ≠ some '\n') :
    stretches (List.replicate (n + 2) '\n' ++ rest) = [] :: stretches rest := by
  have hdrop := dropWhile_breaks (n + 1) hhead
  rw [List.replicate_succ, List.cons_append, stretches, if_pos ⟨rfl, by rfl⟩, hdrop]

theorem Stretched.stretches_eq {cs : List Char} {ss : List (List Char)} (h : Stretched cs ss) :
    stretches cs = ss := by
  induction h with
  | @last s hs =>
    induction s with
    | nil => rw [stretches]
    | cons c rest ih =>
      obtain ⟨hc, hrest⟩ := List.isChain_cons.1 hs
      exact stretches_cons (fun h => hc _ h.2 ⟨h.1, rfl⟩) (ih hrest)
  | @run s rest ss n hs hlast hhead _ hrest =>
    induction s with
    | nil => rw [List.nil_append, stretches_run n hhead, hrest]
    | cons c more ih =>
      obtain ⟨hc, hmore⟩ := List.isChain_cons.1 hs
      cases more with
      | nil =>
        refine stretches_cons (fun h => hlast ?_) (ih .nil (by simp))
        rw [h.1]
        rfl
      | cons d more =>
        rw [List.getLast?_cons_cons] at hlast
        refine stretches_cons (fun h => hc d rfl ⟨h.1, ?_⟩) (ih hmore hlast)
        exact Option.some.inj h.2

/-- `stretches` finds the stretches of a text, and there are no others. -/
theorem stretched_iff {cs : List Char} {ss : List (List Char)} : Stretched cs ss ↔ ss = stretches cs :=
  ⟨fun h => h.stretches_eq.symm, fun h => h ▸ stretched_stretches cs⟩

theorem Stretched.isInfix {cs s : List Char} {ss : List (List Char)} (h : Stretched cs ss) (hs : s ∈ ss) :
    s <:+: cs := by
  induction h with
  | last => exact List.mem_singleton.1 hs ▸ List.infix_rfl
  | run n _ _ _ _ ih =>
    rcases List.mem_cons.1 hs with rfl | hs
    · exact (List.prefix_append _ _).isInfix
    · exact (ih hs).trans ((List.suffix_append _ _).trans (List.suffix_append _ _)).isInfix

/-! ## Paragraphs -/

theorem normalized_append (ss ts : List (List Char)) : normalized (ss ++ ts) = normalized ss ++ normalized ts := by
  rw [normalized, List.map_append, List.filter_append, normalized, normalized]

/-- What is left of a stretch is left of every text with the same lines. -/
theorem normalized_congr {s s' : List Char} (h : normalizeLines s = normalizeLines s') :
    normalized [s] = normalized [s'] := by
  rw [normalized, normalized, List.map_singleton, List.map_singleton, h]

/-- A paragraph is not empty, and normal. -/
def IsParagraph (p : List Char) : Prop := p ≠ [] ∧ normalizeLines p = p

namespace IsParagraph

variable {p : List Char}

theorem solid (h : IsParagraph p) : Solid p := by
  have hs := solid_normalizeLines (h.2.trans_ne h.1)
  rwa [h.2] at hs

theorem unbroken (h : IsParagraph p) : Unbroken p := by
  have hb := isChain_break_normalizeLines p
  rwa [h.2] at hb

theorem head?_ne (h : IsParagraph p) : p.head? ≠ some '\n' := by
  obtain ⟨c, rest, rfl, hc⟩ := h.solid.head
  rintro he
  obtain rfl := Option.some.inj he
  exact absurd hc (by decide)

theorem getLast?_ne (h : IsParagraph p) : p.getLast? ≠ some '\n' := by
  obtain ⟨front, c, rfl, hc⟩ := h.solid.last
  rw [List.getLast?_concat]
  rintro he
  obtain rfl := Option.some.inj he
  exact absurd hc (by decide)

end IsParagraph

/-- A paragraph is what is left of a stretch of the text. -/
theorem exists_of_mem_paragraphs {cs p : List Char} (h : p ∈ paragraphs cs) :
    ∃ s, s <:+: cs ∧ normalizeLines s = p := by
  obtain ⟨s, hs, rfl⟩ := List.mem_map.1 (List.mem_filter.1 h).1
  exact ⟨s, (stretched_stretches cs).isInfix hs, rfl⟩

theorem isParagraph_of_mem {cs p : List Char} (h : p ∈ paragraphs cs) : IsParagraph p := by
  obtain ⟨s, -, rfl⟩ := exists_of_mem_paragraphs h
  exact ⟨by simpa using (List.mem_filter.1 h).2, normalizeLines_normalizeLines s⟩

/-- Paragraphs with a blank line between any two. -/
def putParagraphs (ps : List (List Char)) : List Char := join ['\n', '\n'] ps

theorem putParagraphs_cons_cons (p q : List Char) (ps : List (List Char)) :
    putParagraphs (p :: q :: ps) = p ++ (List.replicate (0 + 2) '\n' ++ putParagraphs (q :: ps)) :=
  List.append_assoc ..

theorem stretched_putParagraphs {ps : List (List Char)} (hne : ps ≠ []) (h : ∀ p ∈ ps, IsParagraph p) :
    Stretched (putParagraphs ps) ps := by
  induction ps with
  | nil => exact absurd rfl hne
  | cons p ps ih =>
    rw [List.forall_mem_cons] at h
    cases ps with
    | nil => exact .last h.1.unbroken
    | cons q ps =>
      rw [putParagraphs_cons_cons]
      refine .run 0 h.1.unbroken h.1.getLast?_ne ?_ (ih (List.cons_ne_nil _ _) h.2)
      have hq := (h.2 q (.head _)).head?_ne
      obtain ⟨c, more, rfl⟩ := List.exists_cons_of_ne_nil (h.2 q (.head _)).1
      cases ps <;> exact hq

/-- Paragraphs that are put together are the paragraphs of the text. -/
theorem paragraphs_putParagraphs {ps : List (List Char)} (h : ∀ p ∈ ps, IsParagraph p) :
    paragraphs (putParagraphs ps) = ps := by
  cases ps with
  | nil =>
    rw [putParagraphs, join, paragraphs, stretches]
    rfl
  | cons p ps =>
    rw [paragraphs, (stretched_putParagraphs (List.cons_ne_nil _ _) h).stretches_eq, normalized]
    have hmap : (p :: ps).map normalizeLines = p :: ps := by
      rw [List.map_congr_left fun q hq => (h q hq).2, List.map_id']
    rw [hmap, List.filter_eq_self]
    exact fun q hq => by simpa using (h q hq).1

end Evomark.Text
