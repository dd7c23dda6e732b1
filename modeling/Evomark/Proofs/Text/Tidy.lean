import Evomark.Proofs.Text.Normal
/-!
# What a normal text looks like

`normalizeText` leaves a text `Tidy`: without tabs, two spaces in a row, or a space beside a line feed, and with
no white space at its ends. A tidy text it leaves as it is (`Tidy.normalizeText_eq`), so these are the normal
texts and nothing else is one. All that is lost on the way are blanks, and white space at the ends
(`unblanked_normalizeText`).

Each of the passes over a text has its part in this. When its blanks have been collapsed, no two spaces follow one
another (`isChain_collapseBlanks`). Therefore one space is all that can stand on either side of a line feed, and what
comes behind a space that is dropped is no other space (`isChain_tightenBreaks`). What is trimmed afterwards are ends,
and no new neighbours come of it.
-/

namespace Evomark.Text

/-- The characters are not two spaces. -/
def NotSpaces (c d : Char) : Prop := ¬ (c = ' ' ∧ d = ' ')

/-- Neighbours in a normal text: not two spaces, nor a space and a line feed. -/
def Spaced (c d : Char) : Prop := ¬ (c = ' ' ∧ (d = ' ' ∨ d = '\n')) ∧ ¬ (c = '\n' ∧ d = ' ')

/-- A text as it is when its white space has been put in order. -/
structure Tidy (cs : List Char) : Prop where
  no_tab : '\t' ∉ cs
  spaced : cs.IsChain Spaced
  trimmed : trim cs = cs

theorem Spaced.notSpaces {c d : Char} (h : Spaced c d) : NotSpaces c d := fun he => h.1 ⟨he.1, .inl he.2⟩

/-- Where no tab is, the only blanks are spaces. -/
theorem isBlank_eq_false {c : Char} (hspace : c ≠ ' ') (htab : c ≠ '\t') : isBlank c = false := by
  simp [isBlank, hspace, htab]

/-! ## Blanks -/

theorem not_tab_mem_collapseBlanks (inRun : Bool) (cs : List Char) : '\t' ∉ collapseBlanks inRun cs := by
  fun_induction collapseBlanks inRun cs with
  | case1 => exact List.not_mem_nil
  | case2 c rest hc ih => exact ih
  | case3 inRun c rest hc hrun ih => exact List.not_mem_cons_of_ne_of_not_mem (by decide) ih
  | case4 inRun c rest hc ih =>
    refine List.not_mem_cons_of_ne_of_not_mem ?_ ih
    rintro rfl
    exact hc rfl

/-- Behind a blank there is no space, and so there are never two. -/
theorem isChain_collapseBlanks (inRun : Bool) (cs : List Char) :
    (collapseBlanks inRun cs).IsChain NotSpaces ∧ (inRun = true → (collapseBlanks inRun cs).head? ≠ some ' ') := by
  fun_induction collapseBlanks inRun cs with
  | case1 => exact ⟨.nil, by simp⟩
  | case2 c rest hc ih => exact ⟨ih.1, fun _ => ih.2 rfl⟩
  | case3 inRun c rest hc hrun ih =>
    refine ⟨List.isChain_cons.2 ⟨fun d hd he => ih.2 rfl ?_, ih.1⟩, fun h => absurd h hrun⟩
    rw [Option.mem_def.1 hd, he.2]
  | case4 inRun c rest hc ih =>
    have hspace : c ≠ ' ' := by
      rintro rfl
      exact hc rfl
    exact ⟨List.isChain_cons.2 ⟨fun d _ he => hspace he.1, ih.1⟩, fun _ he => hspace (Option.some.inj he)⟩

/-- A text without tabs and without two spaces in a row has nothing to be collapsed. -/
theorem collapseBlanks_eq_self {cs : List Char} (htab : '\t' ∉ cs) (hchain : cs.IsChain NotSpaces) {inRun : Bool}
    (hhead : inRun = true → cs.head? ≠ some ' ') : collapseBlanks inRun cs = cs := by
  induction cs generalizing inRun with
  | nil => rfl
  | cons c rest ih =>
    rw [List.mem_cons, not_or] at htab
    rw [List.isChain_cons] at hchain
    by_cases hc : c = ' '
    · subst hc
      have hrun : ¬ inRun = true := fun h => hhead h rfl
      have hnext : rest.head? ≠ some ' ' := fun h => hchain.1 ' ' h ⟨rfl, rfl⟩
      rw [collapseBlanks, if_pos (by rfl), if_neg hrun, ih htab.2 hchain.2 fun _ => hnext]
    · rw [collapseBlanks_cons (isBlank_eq_false hc (Ne.symm htab.1)), ih htab.2 hchain.2 (by simp)]

/-! ## Line feeds -/

theorem mem_of_mem_tightenBreaks {afterBreak : Bool} {cs : List Char} {c : Char} (h : c ∈ tightenBreaks afterBreak cs) :
    c ∈ cs := by
  fun_induction tightenBreaks afterBreak cs with
  | case1 | case2 => exact absurd h List.not_mem_nil
  | case3 => exact h
  | case4 _ _ _ _ _ ih | case5 _ _ _ _ _ _ ih => exact .tail _ (ih h)
  | case6 _ _ _ _ _ _ ih => exact (List.mem_cons.1 h).elim (fun he => he ▸ .head _) fun h => .tail _ (ih h)

/-- Only spaces are dropped. -/
theorem head?_tightenBreaks {c : Char} (hc : c ≠ ' ') (afterBreak : Bool) (cs : List Char) :
    (tightenBreaks afterBreak (c :: cs)).head? = some c := by
  cases cs <;> simp [tightenBreaks, hc]

/-- Of a text without two spaces in a row no space is left beside a line feed, be it in the text or in front of it. -/
theorem isChain_tightenBreaks (afterBreak : Bool) {cs : List Char} (hchain : cs.IsChain NotSpaces) :
    (tightenBreaks afterBreak cs).IsChain Spaced ∧
      (afterBreak = true → (tightenBreaks afterBreak cs).head? ≠ some ' ') := by
  fun_induction tightenBreaks afterBreak cs with
  | case1 | case2 => exact ⟨.nil, by simp⟩
  | case3 afterBreak c h => exact ⟨.singleton c, by simpa using h⟩
  | case4 afterBreak c d rest h ih =>
    simp only [Bool.and_eq_true, beq_iff_eq] at h
    obtain ⟨-, rfl⟩ := h
    exact ⟨(ih hchain.tail).1, fun _ => by rw [head?_tightenBreaks (by decide)]; decide⟩
  | case5 afterBreak c d rest _ h ih =>
    simp only [Bool.and_eq_true, beq_iff_eq] at h
    have hd : d ≠ ' ' := fun he => (List.isChain_cons_cons.1 hchain).1 ⟨h.2, he⟩
    exact ⟨(ih hchain.tail).1, fun _ => by rw [head?_tightenBreaks hd]; simpa using hd⟩
  | case6 afterBreak c d rest hbreak h ih =>
    obtain ⟨hcd, hrest⟩ := List.isChain_cons_cons.1 hchain
    obtain ⟨hspaced, hhead⟩ := ih hrest
    simp only [Bool.and_eq_true, beq_iff_eq, not_and] at hbreak h
    refine ⟨List.isChain_cons.2 ⟨fun e he => ⟨fun hbad => ?_, fun hbad => ?_⟩, hspaced⟩, fun ha he => ?_⟩
    · -- behind a space that stays comes what stands there in the text
      have hd : d ≠ ' ' := fun hd => hcd ⟨hbad.1, hd⟩
      rw [head?_tightenBreaks hd] at he
      obtain rfl := Option.some.inj he
      exact hbad.2.elim hd (hbreak hbad.1)
    · rw [Option.mem_def, hbad.2] at he
      exact hhead (beq_iff_eq.2 hbad.1) he
    · exact h ha (Option.some.inj he)

/-- Where no space stands beside a line feed, none is dropped. -/
theorem tightenBreaks_eq_self {cs : List Char} (hchain : cs.IsChain Spaced) {afterBreak : Bool}
    (hhead : afterBreak = true → cs.head? ≠ some ' ') : tightenBreaks afterBreak cs = cs := by
  fun_induction tightenBreaks afterBreak cs with
  | case1 | case3 => rfl
  | case2 afterBreak c h =>
    simp only [Bool.and_eq_true, beq_iff_eq] at h
    exact absurd (congrArg some h.2) (hhead h.1)
  | case4 afterBreak c d rest h ih =>
    simp only [Bool.and_eq_true, beq_iff_eq] at h
    exact absurd ⟨h.1, .inr h.2⟩ (List.isChain_cons_cons.1 hchain).1.1
  | case5 afterBreak c d rest _ h ih =>
    simp only [Bool.and_eq_true, beq_iff_eq] at h
    exact absurd (congrArg some h.2) (hhead h.1)
  | case6 afterBreak c d rest _ h ih =>
    obtain ⟨hcd, hrest⟩ := List.isChain_cons_cons.1 hchain
    rw [ih hrest fun hc he => hcd.2 ⟨beq_iff_eq.1 hc, Option.some.inj he⟩]

/-! ## Ends -/

theorem trim_trim (cs : List Char) : trim (trim cs) = trim cs := by
  by_cases h : trim cs = []
  · rw [h]
    rfl
  · exact (solid_trim h).trim_eq

/-! ## Normal texts -/

theorem tidy_normalizeText (cs : List Char) : Tidy (normalizeText cs) where
  no_tab h := not_tab_mem_collapseBlanks false cs (mem_of_mem_tightenBreaks ((infix_trim _).subset h))
  spaced :=
    have hspaced := (isChain_tightenBreaks false (isChain_collapseBlanks false cs).1).1
    hspaced.infix (infix_trim _)
  trimmed := trim_trim _

/-- A tidy text is normal. -/
theorem Tidy.normalizeText_eq {cs : List Char} (h : Tidy cs) : normalizeText cs = cs := by
  have hcollapse : collapseBlanks false cs = cs :=
    collapseBlanks_eq_self h.no_tab (h.spaced.imp fun _ _ => Spaced.notSpaces) (by simp)
  rw [normalizeText, hcollapse, tightenBreaks_eq_self h.spaced (by simp), h.trimmed]

/-! ## What is left out -/

/-- A text without its blanks. -/
def unblanked (cs : List Char) : List Char := cs.filter (!isBlank ·)

theorem unblanked_append (cs ds : List Char) : unblanked (cs ++ ds) = unblanked cs ++ unblanked ds :=
  List.filter_append ..

theorem unblanked_of_isBlank {c : Char} (hc : isBlank c = true) (cs : List Char) :
    unblanked (c :: cs) = unblanked cs :=
  List.filter_cons_of_neg (by simp [hc])

theorem unblanked_cons {c : Char} (hc : isBlank c = false) (cs : List Char) :
    unblanked (c :: cs) = c :: unblanked cs :=
  List.filter_cons_of_pos (by simp [hc])

theorem unblanked_collapseBlanks (inRun : Bool) (cs : List Char) :
    unblanked (collapseBlanks inRun cs) = unblanked cs := by
  fun_induction collapseBlanks inRun cs with
  | case1 => rfl
  | case2 c rest hc ih => rw [ih, unblanked_of_isBlank hc]
  | case3 inRun c rest hc hrun ih => rw [unblanked_of_isBlank rfl, ih, unblanked_of_isBlank hc]
  | case4 inRun c rest hc ih =>
    have hc : isBlank c = false := by simpa using hc
    rw [unblanked_cons hc, ih, unblanked_cons hc]

theorem unblanked_tightenBreaks (afterBreak : Bool) (cs : List Char) :
    unblanked (tightenBreaks afterBreak cs) = unblanked cs := by
  fun_induction tightenBreaks afterBreak cs with
  | case1 | case3 => rfl
  | case2 afterBreak c h =>
    simp only [Bool.and_eq_true, beq_iff_eq] at h
    rw [h.2]
    rfl
  | case4 afterBreak c d rest h ih | case5 afterBreak c d rest _ h ih =>
    simp only [Bool.and_eq_true, beq_iff_eq] at h
    rw [ih, unblanked_of_isBlank (c := c) (by simp [h, isBlank])]
  | case6 afterBreak c d rest _ h ih =>
    have happend (ds : List Char) : unblanked (c :: ds) = unblanked [c] ++ unblanked ds := unblanked_append [c] ds
    rw [happend, happend (d :: rest), ih]

theorem Solid.unblanked {cs : List Char} (h : Solid cs) : Solid (unblanked cs) := by
  constructor
  · obtain ⟨c, rest, rfl, hc⟩ := h.head
    exact ⟨c, _, unblanked_cons (not_isBlank_of_not_isWhite hc) rest, hc⟩
  · obtain ⟨front, c, rfl, hc⟩ := h.last
    refine ⟨Text.unblanked front, c, ?_, hc⟩
    rw [unblanked_append, unblanked_cons (not_isBlank_of_not_isWhite hc)]
    rfl

/-- Whether the blanks are dropped before a text is trimmed or afterwards does not matter, since they are white space
as well. -/
theorem unblanked_trim (cs : List Char) : unblanked (trim cs) = trim (unblanked cs) := by
  obtain ⟨front, back, hcs, hfront, hback⟩ := exists_strip isWhite cs
  have hwhite {ws : List Char} (h : ∀ c ∈ ws, isWhite c = true) : IsBlankText (unblanked ws) :=
    fun c hc => h c (List.mem_of_mem_filter hc)
  have hcut : trim (unblanked cs) = trim (unblanked (trim cs)) := by
    conv_lhs => rw [hcs]
    rw [unblanked_append, unblanked_append, trim_blank_append (hwhite hfront), trim_append_blank (hwhite hback)]
    rfl
  rw [hcut]
  by_cases h : trim cs = []
  · rw [h]
    rfl
  · exact (solid_trim h).unblanked.trim_eq.symm

/-- Nothing is lost but blanks and the white space at the ends. -/
theorem unblanked_normalizeText (cs : List Char) : unblanked (normalizeText cs) = trim (unblanked cs) := by
  rw [normalizeText, unblanked_trim, unblanked_tightenBreaks, unblanked_collapseBlanks]

/-- The blanks of a text without tabs are its spaces. -/
theorem filter_ne_space {cs : List Char} (h : '\t' ∉ cs) : cs.filter (· ≠ ' ') = unblanked cs := by
  refine List.filter_congr fun c hc => ?_
  have htab : c ≠ '\t' := fun he => h (he ▸ hc)
  by_cases hspace : c = ' ' <;> simp [isBlank, hspace, htab]

/-- At neither end of a trimmed text is white space. -/
theorem not_white_ends {cs : List Char} (h : trim cs = cs) :
    (∀ c, cs.head? = some c → isWhite c = false) ∧ ∀ c, cs.getLast? = some c → isWhite c = false := by
  by_cases hne : cs = []
  · subst hne
    exact ⟨by simp, by simp⟩
  · have hsolid := solid_trim (h.trans_ne hne)
    rw [h] at hsolid
    obtain ⟨⟨c, rest, hhead, hc⟩, front, d, hlast, hd⟩ := hsolid
    refine ⟨fun e he => ?_, fun e he => ?_⟩
    · rw [hhead] at he
      exact Option.some.inj he ▸ hc
    · rw [hlast, List.getLast?_concat] at he
      exact Option.some.inj he ▸ hd

/-- A normalized text has no tab, no two spaces in a row, no space beside a line feed, and no white space at either
end. But for its spaces it is the text that it was made of without blanks and trimmed. Normalized once more it stays
the same. -/
theorem textNormalized_canonical (s : String) :
    textNormalized (textNormalized s) = textNormalized s ∧
    let normal := (textNormalized s).toList
    '\t' ∉ normal ∧ ¬ [' ', ' '] <:+: normal ∧ ¬ [' ', '\n'] <:+: normal ∧ ¬ ['\n', ' '] <:+: normal ∧
      (∀ c, normal.head? = some c → isWhite c = false) ∧ (∀ c, normal.getLast? = some c → isWhite c = false) ∧
      normal.filter (· ≠ ' ') = trim (s.toList.filter fun c => c ≠ ' ' ∧ c ≠ '\t') := by
  have hnormal : (textNormalized s).toList = normalizeText s.toList := String.toList_ofList ..
  have htidy : Tidy (textNormalized s).toList := hnormal ▸ tidy_normalizeText s.toList
  refine ⟨?_, ?_⟩
  · show String.ofList (normalizeText (textNormalized s).toList) = textNormalized s
    rw [htidy.normalizeText_eq]
    exact String.ofList_toList ..
  intro normal
  have hspaced {c d : Char} (h : [c, d] <:+: normal) : Spaced c d := by
    obtain ⟨front, back, hcut⟩ := h
    rw [List.append_assoc] at hcut
    exact List.isChain_iff_forall_rel_of_append_cons_cons.1 htidy.spaced hcut.symm
  obtain ⟨hhead, hlast⟩ := not_white_ends htidy.trimmed
  refine ⟨htidy.no_tab, fun h => (hspaced h).1 ⟨rfl, .inl rfl⟩, fun h => (hspaced h).1 ⟨rfl, .inr rfl⟩,
    fun h => (hspaced h).2 ⟨rfl, rfl⟩, hhead, hlast, ?_⟩
  rw [filter_ne_space htidy.no_tab, hnormal, unblanked_normalizeText, unblanked]
  refine congrArg trim (List.filter_congr fun c _ => ?_)
  by_cases hspace : c = ' ' <;> by_cases htab : c = '\t' <;> simp [isBlank, hspace, htab]

/-- The space between two line feeds goes, and white space that is no blank goes at the ends only. -/
example : textNormalized " \u00a0a\t\n \n b \t\u00a0 c\r\n" = "a\n\nb \u00a0 c" := by decide +kernel

end Evomark.Text
