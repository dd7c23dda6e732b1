import Evomark.Proofs.Json.Written
import Evomark.Proofs.Text.Lines
/-!
# Texts between delimiters

A text whose braces are nested and in which nothing is escaped can stand between braces: the closing
brace behind it is the one that closes the body (`Nests.splitBraces_eq`). A text without a bar can
stand between fences (`splitAt?_closingFence`).
-/

namespace Evomark.Clause

open Text

/-- How deep braces are open behind a text that starts with `depth` of them open, if no brace closes
more and nothing is escaped. -/
def depthAfter (depth : Nat) : List Char → Option Nat
  | [] => some depth
  | c :: rest =>
    if c = '\\' then none
    else if c = '\x7b' then depthAfter (depth + 1) rest
    else if c = '\x7d' then
      match depth with
      | 0 => none
      | depth + 1 => depthAfter depth rest
    else depthAfter depth rest

theorem depthAfter_append (depth : Nat) (cs ds : List Char) :
    depthAfter depth (cs ++ ds) = (depthAfter depth cs).bind (depthAfter · ds) := by
  fun_induction depthAfter depth cs with
  | case1 => rfl
  | case2 => simp [depthAfter]
  | case3 depth rest hs ih => simpa [depthAfter] using ih
  | case4 => simp [depthAfter]
  | case5 rest hs hb depth ih => simpa [depthAfter] using ih
  | case6 depth c rest hs hb hc ih => simpa [depthAfter, hs, hb, hc] using ih

/-- A text that is passed over on the way to a closing brace. -/
theorem splitBraces_of_depthAfter {depth after : Nat} {cs : List Char}
    (h : depthAfter depth cs = some after) (rest : List Char) :
    splitBraces depth (cs ++ rest) = extend cs (splitBraces after rest) := by
  fun_induction depthAfter depth cs with
  | case1 =>
    obtain rfl := Option.some.inj h
    exact (extend_nil _).symm
  | case2 | case4 => simp at h
  | case3 _ _ _ ih | case5 _ _ _ _ ih =>
    rw [List.cons_append, splitBraces.eq_def]
    simp [ih h, extend_extend]
  | case6 _ _ _ hs hb hc ih =>
    rw [List.cons_append, splitBraces.eq_def]
    simp [hs, hb, hc, ih h, extend_extend]

/-- A character that opens, closes and escapes nothing and ends no line. -/
def IsInert (c : Char) : Prop := c ∉ ['\\', '\x7b', '\x7d'] ∧ c ≠ '\n'

instance : DecidablePred IsInert := fun c =>
  inferInstanceAs (Decidable (c ∉ ['\\', '\x7b', '\x7d'] ∧ c ≠ '\n'))

/-- What is trimmed at the end of a text is white space. -/
theorem exists_blank_trimEnd (cs : List Char) : ∃ ws, IsBlankText ws ∧ trimEnd cs ++ ws = cs := by
  refine ⟨(cs.reverse.takeWhile isWhite).reverse, fun c hc => ?_, ?_⟩
  · exact List.mem_takeWhile_imp (List.mem_reverse.1 hc)
  · rw [trimEnd, dropEndWhile, ← List.reverse_append, List.takeWhile_append_dropWhile,
      List.reverse_reverse]

/-- The braces in a text are nested, nothing in it is escaped, and if `oneLine` it has no line feed. -/
structure Nests (oneLine : Bool) (cs : List Char) : Prop where
  balanced : ∀ depth, depthAfter depth cs = some depth
  line : oneLine = true → '\n' ∉ cs

namespace Nests

variable {oneLine : Bool} {cs ds : List Char}

theorem nil : Nests oneLine [] := ⟨fun _ => rfl, fun _ => List.not_mem_nil⟩

theorem append (h : Nests oneLine cs) (h' : Nests oneLine ds) : Nests oneLine (cs ++ ds) := by
  refine ⟨fun depth => ?_, fun hl => ?_⟩
  · rw [depthAfter_append, h.balanced, Option.bind_some, h'.balanced]
  · rw [List.mem_append, not_or]
    exact ⟨h.line hl, h'.line hl⟩

/-- A text without braces and backslashes. -/
theorem of_plain (h : ∀ c ∈ cs, c ∉ ['\\', '\x7b', '\x7d']) (hl : oneLine = true → '\n' ∉ cs) :
    Nests oneLine cs := by
  refine ⟨fun depth => ?_, hl⟩
  clear hl
  induction cs with
  | nil => rfl
  | cons c rest ih =>
    rw [List.forall_mem_cons] at h
    have hc := h.1
    simp only [List.mem_cons, List.not_mem_nil, or_false, not_or] at hc
    rw [depthAfter.eq_def]
    simp only [hc.1, hc.2.1, hc.2.2, if_false]
    exact ih h.2

/-- A text that has no line feeds either. -/
theorem of_inert (h : ∀ c ∈ cs, IsInert c) : Nests oneLine cs :=
  of_plain (fun c hc => (h c hc).1) fun _ hn => (h _ hn).2 rfl

/-- A text between braces. -/
theorem braces (h : Nests oneLine cs) : Nests oneLine ('\x7b' :: cs ++ ['\x7d']) := by
  refine ⟨fun depth => ?_, fun hl => ?_⟩
  · show depthAfter (depth + 1) (cs ++ ['\x7d']) = some depth
    rw [depthAfter_append, h.balanced]
    rfl
  · simpa using h.line hl

/-- A text on one line is so wherever it stands. -/
theorem relax (h : Nests true cs) : Nests oneLine cs := ⟨h.balanced, fun _ => h.line rfl⟩

/-- A text without the white space at its end. -/
theorem trimEnd (h : Nests oneLine cs) : Nests oneLine (Text.trimEnd cs) := by
  obtain ⟨ws, hblank, hws⟩ := exists_blank_trimEnd cs
  have hplain : Nests false ws := of_plain (fun c hc hmem => by
    have hwhite := hblank c hc
    simp only [List.mem_cons, List.not_mem_nil, or_false] at hmem
    rcases hmem with rfl | rfl | rfl <;> exact absurd hwhite (by decide)) (by simp)
  refine ⟨fun depth => ?_, fun hl hmem => h.line hl ((prefix_trimEnd cs).subset hmem)⟩
  have hdepth := h.balanced depth
  rw [← hws, depthAfter_append] at hdepth
  cases hd : depthAfter depth (Text.trimEnd cs) with
  | none =>
    rw [hd] at hdepth
    exact absurd hdepth (by simp)
  | some after =>
    rwa [hd, Option.bind_some, hplain.balanced] at hdepth

/-- The closing brace behind the text is the one that closes it. -/
theorem splitBraces_eq (h : Nests oneLine cs) : splitBraces 0 (cs ++ ['\x7d']) = some (cs, []) := by
  rw [splitBraces_of_depthAfter (h.balanced 0)]
  show extend cs (some ([], [])) = _
  simp [extend]

end Nests

/-- A closing fence that starts in a text with another one behind it stands in the text. -/
theorem startsWith_closingFence {inside : List Char} {n : Nat} (hne : inside ≠ [])
    (h : closingFence n <+: inside ++ closingFence n) : closingFence n <+: inside := by
  rcases Nat.lt_or_ge n inside.length with hlong | hshort
  · refine List.prefix_of_prefix_length_le h (List.prefix_append _ _) ?_
    simpa [closingFence] using Nat.succ_le_of_lt hlong
  · -- the bar of the first fence would stand among the equality signs of the second
    obtain ⟨more, hmore⟩ := h
    have hpos := List.length_pos_iff.2 hne
    have hbar : (closingFence n ++ more)[n]? = some '|' := by simp [closingFence]
    have hsign : (inside ++ closingFence n)[n]? = some '=' := by
      have hlt : n - inside.length < n := by omega
      rw [List.getElem?_append_right hshort, closingFence, List.getElem?_append_left (by simpa using hlt),
        List.getElem?_replicate_of_lt hlt]
    rw [hmore, hsign] at hbar
    exact absurd hbar (by decide)

/-- The closing fence behind a text in which none stands is the one that closes it. -/
theorem splitAt?_closingFence {inside : List Char} {n : Nat} (h : ¬ closingFence n <:+: inside) :
    splitAt? (closingFence n) (inside ++ closingFence n) = some (inside, []) := by
  induction inside with
  | nil =>
    obtain ⟨c, more, hfence⟩ : ∃ c more, closingFence n = c :: more :=
      List.exists_cons_of_ne_nil (by simp [closingFence])
    have hprefix : (closingFence n).isPrefixOf (closingFence n) = true :=
      List.isPrefixOf_iff_prefix.2 (List.prefix_refl _)
    rw [List.nil_append]
    conv_lhs => rw [hfence]
    rw [hfence] at hprefix
    rw [splitAt?, if_pos hprefix, List.drop_length]
  | cons c rest ih =>
    have hnot : ¬ (closingFence n).isPrefixOf (c :: (rest ++ closingFence n)) = true := fun hp =>
      h (startsWith_closingFence (List.cons_ne_nil c rest) (List.isPrefixOf_iff_prefix.1 hp)).isInfix
    rw [List.cons_append, splitAt?, if_neg hnot, ih fun hin => h (hin.trans (List.suffix_cons c rest).isInfix)]
    rfl

end Evomark.Clause
