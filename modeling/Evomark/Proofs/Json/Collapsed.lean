import Evomark.Proofs.Json.ReadBack
import Evomark.Proofs.Json.Written
import Evomark.Proofs.Text.Normal
/-!
# Written values with their blanks collapsed

In the compact text of a value white space stands between quotes only, and of that only spaces are
written as they are (`space_le_of_mem_write`). Where the blanks of such a text are collapsed, the value
is read back with the spaces in its strings and keys collapsed (`read_collapsed`), and as it was if
nowhere two spaces are side by side (`mapStrings_spacesCollapsed`).
-/

namespace Evomark

namespace Text

/-- Each run of spaces becomes one space. `inRun` says that the character before was a space. -/
def collapseSpaces (inRun : Bool) : List Char → List Char
  | [] => []
  | c :: rest =>
    if c = ' ' then
      if inRun then collapseSpaces true rest else ' ' :: collapseSpaces true rest
    else c :: collapseSpaces false rest

/-- `collapseSpaces` of a string. -/
def spacesCollapsed (s : String) : String := String.ofList (collapseSpaces false s.toList)

theorem isBlank_of_space_lt {c : Char} (h : 32 < c.toNat) : isBlank c = false := by
  simp only [isBlank, Bool.or_eq_false_iff, beq_eq_false_iff_ne]
  constructor <;>
  · rintro rfl
    exact absurd h (by decide)

/-- Without two blanks side by side there is nothing to collapse. -/
theorem collapseBlanks_of_isChain {cs : List Char} (hb : ∀ c ∈ cs, isBlank c = true → c = ' ')
    (h : cs.IsChain fun c d => ¬ (c = ' ' ∧ d = ' ')) : collapseBlanks false cs = cs := by
  have hrun {cs : List Char} (hb : ∀ c ∈ cs, isBlank c = true → c = ' ') (hh : cs.head? ≠ some ' ') :
      collapseBlanks true cs = collapseBlanks false cs := by
    cases cs with
    | nil => rfl
    | cons c rest =>
      have hc : isBlank c = false := Bool.eq_false_iff.2 fun hc => hh (congrArg some (hb c (.head _) hc))
      simp [collapseBlanks, hc]
  induction cs with
  | nil => rfl
  | cons c rest ih =>
    rw [List.forall_mem_cons] at hb
    obtain ⟨hhead, hrest⟩ := List.isChain_cons.1 h
    have ih := ih hb.2 hrest
    by_cases hc : isBlank c = true
    · obtain rfl := hb.1 hc
      have hnext : rest.head? ≠ some ' ' := fun hd => hhead ' ' hd ⟨rfl, rfl⟩
      rw [collapseBlanks, if_pos hc, hrun hb.2 hnext, ih]
      rfl
    · rw [collapseBlanks, if_neg hc, ih]

end Text

open Text

namespace Json

/-! ## Characters of a written value -/

theorem space_lt_digitChar : ∀ n < 16, 32 < (Nat.digitChar n).toNat := by
  decide

theorem escape_ne_nil (c : Char) : escape c ≠ [] := by
  unfold escape
  repeat' split
  all_goals simp

/-- Only a space is written as a space, and nothing as a control character. -/
theorem space_lt_of_mem_escape {c d : Char} (hc : c ≠ ' ') (h : d ∈ escape c) : 32 < d.toNat := by
  have hpair {e : Char} (he : 32 < e.toNat) (h : d ∈ ['\\', e]) : 32 < d.toNat := by
    simp only [List.mem_cons, List.not_mem_nil, or_false] at h
    rcases h with rfl | rfl
    · decide
    · exact he
  unfold escape at h
  repeat' split at h
  all_goals try exact hpair (by decide) h
  · simp only [hexByte, List.mem_append, List.mem_cons, List.not_mem_nil, or_false] at h
    rcases h with (rfl | rfl | rfl | rfl) | rfl | rfl
    · decide
    · decide
    · decide
    · decide
    · exact space_lt_digitChar _ (by omega)
    · exact space_lt_digitChar _ (by omega)
  · rw [List.mem_singleton] at h
    rw [h]
    have hne : c.toNat ≠ 32 := fun he => hc (by rw [← Char.ofNat_toNat c, he])
    omega

theorem space_le_of_mem_quote {s : String} {d : Char} (h : d ∈ quote s) : 32 ≤ d.toNat := by
  rw [quote, List.mem_append, List.mem_cons, List.mem_flatMap, List.mem_singleton] at h
  rcases h with (rfl | ⟨c, -, h⟩) | rfl
  · decide
  · by_cases hc : c = ' '
    · rw [hc] at h
      obtain rfl : d = ' ' := List.mem_singleton.1 h
      decide
    · exact Nat.le_of_lt (space_lt_of_mem_escape hc h)
  · decide

theorem space_lt_of_isNumberChar {c : Char} (h : IsNumberChar c) : 32 < c.toNat := by
  obtain h | rfl | rfl | rfl | rfl := h
  · simp only [Char.isDigit, Bool.and_eq_true, decide_eq_true_eq] at h
    exact Nat.lt_of_lt_of_le (by decide) h.1
  all_goals decide

mutual

/-- No character of a written value is a control character. -/
theorem space_le_of_mem_write : ∀ {value : Json} {d : Char}, d ∈ value.write → 32 ≤ d.toNat
  | null, d, h => forall_mem_of_all (p := fun d => 32 ≤ d.toNat) rfl d h
  | bool true, d, h => forall_mem_of_all (p := fun d => 32 ≤ d.toNat) rfl d h
  | bool false, d, h => forall_mem_of_all (p := fun d => 32 ≤ d.toNat) rfl d h
  | number n, d, h => Nat.le_of_lt (space_lt_of_isNumberChar (isNumberChar_of_mem_write h))
  | string s, d, h => space_le_of_mem_quote h
  | array items, d, h => by
    rw [write, List.mem_append, List.mem_cons, List.mem_singleton] at h
    rcases h with (rfl | h) | rfl
    · decide
    · exact space_le_of_mem_writeItems h
    · decide
  | object fields, d, h => by
    rw [write, List.mem_append, List.mem_cons, List.mem_singleton] at h
    rcases h with (rfl | h) | rfl
    · decide
    · exact space_le_of_mem_writeFields h
    · decide

theorem space_le_of_mem_writeItems : ∀ {items : List Json} {d : Char},
    d ∈ writeItems items → 32 ≤ d.toNat
  | [], d, h => absurd h (by simp [writeItems])
  | [item], d, h => by
    rw [writeItems] at h
    exact space_le_of_mem_write h
  | item :: next :: more, d, h => by
    rw [writeItems, List.mem_append, List.mem_cons] at h
    · rcases h with h | rfl | h
      · exact space_le_of_mem_write h
      · decide
      · exact space_le_of_mem_writeItems h
    · simp

theorem space_le_of_mem_writeFields : ∀ {fields : List (String × Json)} {d : Char},
    d ∈ writeFields fields → 32 ≤ d.toNat
  | [], d, h => absurd h (by simp [writeFields])
  | [(key, value)], d, h => by
    rw [writeFields, List.mem_append, List.mem_cons] at h
    rcases h with h | rfl | h
    · exact space_le_of_mem_quote h
    · decide
    · exact space_le_of_mem_write h
  | (key, value) :: next :: more, d, h => by
    rw [writeFields] at h
    · simp only [List.mem_append, List.mem_cons] at h
      rcases h with (h | rfl | h) | rfl | h
      · exact space_le_of_mem_quote h
      · decide
      · exact space_le_of_mem_write h
      · decide
      · exact space_le_of_mem_writeFields h
    · simp

end

theorem not_break_mem_write (value : Json) : '\n' ∉ value.write :=
  fun h => absurd (space_le_of_mem_write h) (by decide)

/-! ## Blanks of a written value -/

/-- The blanks between quotes are collapsed as the spaces of the string. -/
theorem collapseBlanks_escapes (inRun : Bool) (chars rest : List Char) :
    collapseBlanks inRun (chars.flatMap escape ++ '"' :: rest) =
      (collapseSpaces inRun chars).flatMap escape ++ '"' :: collapseBlanks false rest := by
  induction chars generalizing inRun with
  | nil => exact collapseBlanks_cons rfl inRun rest
  | cons c chars ih =>
    rw [List.flatMap_cons, List.append_assoc]
    by_cases hc : c = ' '
    · have hspace : escape ' ' = [' '] := rfl
      have hblank : isBlank ' ' = true := rfl
      rw [hc, hspace, List.singleton_append, Text.collapseBlanks, if_pos hblank, collapseSpaces,
        if_pos rfl, ih]
      cases inRun <;> rfl
    · have hplain : ∀ d ∈ escape c, isBlank d = false := fun d hd =>
        isBlank_of_space_lt (space_lt_of_mem_escape hc hd)
      obtain ⟨front, d, hd⟩ := (List.eq_nil_or_concat (escape c)).resolve_left (escape_ne_nil c)
      rw [List.concat_eq_append] at hd
      rw [collapseBlanks_append ⟨front, d, hd, hplain d (by simp [hd])⟩,
        collapseBlanks_of_forall hplain, ih, collapseSpaces, if_neg hc, List.flatMap_cons,
        List.append_assoc]

theorem collapseBlanks_quote (s : String) : collapseBlanks false (quote s) = quote (spacesCollapsed s) := by
  have hescapes := collapseBlanks_escapes false s.toList []
  rw [quote, quote, spacesCollapsed, String.toList_ofList, List.cons_append, List.cons_append]
  exact (collapseBlanks_cons rfl false _).trans (congrArg ('"' :: ·) hescapes)

/-- Pieces behind commas are collapsed each by itself. -/
theorem collapseBlanks_commas {pieces : List (List Char)} (h : ∀ piece ∈ pieces, Shut piece)
    (rest : List Char) :
    collapseBlanks false (commas [] [] pieces ++ rest) =
      commas [] [] (pieces.map (collapseBlanks false)) ++ collapseBlanks false rest := by
  induction pieces with
  | nil => rfl
  | cons piece pieces ih =>
    rw [List.forall_mem_cons] at h
    have hcomma : isBlank ',' = false := rfl
    simp only [commas, List.map_cons, List.cons_append, List.append_assoc, List.nil_append,
      collapseBlanks_cons hcomma, collapseBlanks_append h.1, ih h.2]

theorem collapseBlanks_joined {pieces : List (List Char)} (h : ∀ piece ∈ pieces, Shut piece)
    (rest : List Char) :
    collapseBlanks false (joined [] [] pieces ++ rest) =
      joined [] [] (pieces.map (collapseBlanks false)) ++ collapseBlanks false rest := by
  cases pieces with
  | nil => rfl
  | cons piece pieces =>
    rw [List.forall_mem_cons] at h
    simp only [joined, List.map_cons, List.append_assoc, List.nil_append, collapseBlanks_append h.1,
      collapseBlanks_commas h.2]

theorem collapseBlanks_field (field : String × Json) :
    collapseBlanks false (fieldText [] write field) =
      fieldText [] (fun value => collapseBlanks false value.write) (spacesCollapsed field.1, field.2) := by
  rw [fieldText, collapseBlanks_append (solid_quote field.1).shut, collapseBlanks_quote]
  exact congrArg (quote _ ++ ·) (collapseBlanks_cons rfl false field.2.write)

theorem shut_field (field : String × Json) : Shut (fieldText [] write field) := by
  obtain ⟨front, c, hwrite, hc⟩ := (solid_write field.2).shut
  exact ⟨quote field.1 ++ ':' :: front, c, by simp [fieldText, hwrite], hc⟩

/-- How values are written with their blanks collapsed. -/
theorem lays_collapsed :
    Lays spacesCollapsed (fun _ value => collapseBlanks false value.write) (fun _ => []) [] where
  blank_line _ := isBlank_nil
  blank_gap := isBlank_nil
  null _ := by rw [write]; rfl
  bool _ b := by cases b <;> rw [write] <;> rfl
  number _ n := by
    rw [write]
    exact collapseBlanks_of_forall (fun c hc =>
      isBlank_of_space_lt (space_lt_of_isNumberChar (isNumberChar_of_mem_write hc))) false
  string _ s := by rw [write, collapseBlanks_quote]
  array _ items := by
    have hpieces : ∀ piece ∈ items.map write, Shut piece :=
      List.forall_mem_map.2 fun item _ => (solid_write item).shut
    have hwrite : (Json.array items).write = '[' :: (joined [] [] (items.map write) ++ [']']) :=
      lays_write.array 0 items
    rw [hwrite, collapseBlanks_cons rfl, collapseBlanks_joined hpieces, List.map_map]
    rfl
  object _ fields := by
    have hpieces : ∀ piece ∈ fields.map (fieldText [] write), Shut piece :=
      List.forall_mem_map.2 fun field _ => shut_field field
    have hfields : (fields.map (fieldText [] write)).map (collapseBlanks false) = fields.map fun field =>
        fieldText [] (fun value => collapseBlanks false value.write) (spacesCollapsed field.1, field.2) := by
      rw [List.map_map]
      exact List.map_congr_left fun field _ => collapseBlanks_field field
    have hwrite : (Json.object fields).write =
        '\x7b' :: (joined [] [] (fields.map (fieldText [] write)) ++ ['\x7d']) := lays_write.object 0 fields
    rw [hwrite, collapseBlanks_cons rfl, collapseBlanks_joined hpieces, hfields]
    rfl

/-! ## Reading -/

/-- From its compact text with the blanks collapsed a value is read back with the spaces in its strings
and keys collapsed. -/
theorem read_collapsed {value : Json} (h : IsGood maxDepth value) (hwhole : value.isWhole = true) :
    read (String.ofList (collapseBlanks false value.write)) = .ok (value.mapStrings spacesCollapsed) :=
  (lays_collapsed.rereads_mapStrings value h hwhole 0).readAll

example : (object [("a  b", .int 7), ("a b", .array [.string "x   y", .null])]).mapStrings spacesCollapsed =
    object [("a b", .array [.string "x y", .null])] := rfl

/-- Where nowhere in its compact text two spaces are side by side, a value does not change. -/
theorem mapStrings_spacesCollapsed {value : Json} (h : IsGood maxDepth value)
    (hwhole : value.isWhole = true) (hs : value.write.IsChain fun c d => ¬ (c = ' ' ∧ d = ' ')) :
    value.mapStrings spacesCollapsed = value := by
  have hblank : ∀ c ∈ value.write, isBlank c = true → c = ' ' := by
    intro c hc hb
    simp only [isBlank, Bool.or_eq_true, beq_iff_eq] at hb
    refine hb.resolve_right ?_
    rintro rfl
    exact absurd (space_le_of_mem_write hc) (by decide)
  have hread := read_collapsed h hwhole
  rw [collapseBlanks_of_isChain hblank hs, ← compact, read_compact h hwhole] at hread
  exact (Except.ok.inj hread).symm

end Json

end Evomark
