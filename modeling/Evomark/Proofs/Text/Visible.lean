import Evomark.Proofs.Text.Lines
/-!
# What is visible of a text

`visible` deletes the white space of a text, wherever it stands. It sees neither how the ends of a
text are trimmed (`visible_trim`) nor how its lines are normalized (`visible_normalizeLines`).
-/

namespace Evomark.Text

/-- The characters of a text that are not white space, in their order. -/
def visible (cs : List Char) : List Char := cs.filter (!isWhite ·)

@[simp] theorem visible_nil : visible [] = [] := rfl

@[simp] theorem visible_append (cs ds : List Char) : visible (cs ++ ds) = visible cs ++ visible ds :=
  List.filter_append ..

theorem visible_cons {c : Char} (h : isWhite c = false) (cs : List Char) :
    visible (c :: cs) = c :: visible cs :=
  List.filter_cons_of_pos (by simp [h])

theorem visible_blank {cs : List Char} (h : IsBlankText cs) : visible cs = [] :=
  List.filter_eq_nil_iff.2 fun c hc => by simp [h c hc]

theorem visible_of_not_white {cs : List Char} (h : ∀ c ∈ cs, isWhite c = false) : visible cs = cs :=
  List.filter_eq_self.2 fun c hc => by simp [h c hc]

theorem visible_replicate {c : Char} (h : isWhite c = false) (n : Nat) :
    visible (List.replicate n c) = List.replicate n c :=
  visible_of_not_white fun d hd => by rwa [List.eq_of_mem_replicate hd]

theorem visible_reverse (cs : List Char) : visible cs.reverse = (visible cs).reverse :=
  List.filter_reverse ..

/-- White space that a text starts with may be dropped. -/
theorem visible_dropWhile {p : Char → Bool} (h : ∀ c, p c = true → isWhite c = true) (cs : List Char) :
    visible (cs.dropWhile p) = visible cs := by
  have hblank : visible (cs.takeWhile p) = [] :=
    visible_blank fun c hc => h c (List.mem_takeWhile_imp hc)
  calc visible (cs.dropWhile p)
    _ = visible (cs.takeWhile p) ++ visible (cs.dropWhile p) := by rw [hblank, List.nil_append]
    _ = visible cs := by rw [← visible_append, List.takeWhile_append_dropWhile]

theorem visible_trimStart (cs : List Char) : visible (trimStart cs) = visible cs :=
  visible_dropWhile (fun _ h => h) cs

theorem visible_trimEnd (cs : List Char) : visible (trimEnd cs) = visible cs := by
  rw [trimEnd, dropEndWhile, visible_reverse, visible_dropWhile fun _ h => h, visible_reverse,
    List.reverse_reverse]

theorem visible_trim (cs : List Char) : visible (trim cs) = visible cs := by
  rw [trim, visible_trimEnd, visible_trimStart]

/-! ## Lines -/

theorem visible_joinLines (ls : List (List Char)) : visible (joinLines ls) = ls.flatMap visible := by
  induction ls with
  | nil => rfl
  | cons line more ih =>
    cases more with
    | nil => simp [joinLines, join]
    | cons next more =>
      have hbreak : visible ['\n'] = [] := rfl
      show visible (line ++ ['\n'] ++ joinLines (next :: more)) = _
      rw [visible_append, visible_append, hbreak, List.append_nil, ih]
      exact (List.flatMap_cons ..).symm

/-- What is left of the lines of a text is all that is visible of it. -/
theorem flatMap_visible_lines (cs : List Char) : (lines cs).flatMap visible = visible cs := by
  have hdrop : ∀ ls : List (List Char), (ls.filter (!·.isEmpty)).flatMap visible = ls.flatMap visible := by
    intro ls
    induction ls with
    | nil => rfl
    | cons line more ih =>
      cases line with
      | nil => simpa using ih
      | cons c rest => simpa using ih
  calc (lines cs).flatMap visible
    _ = ((splitLines cs).map trim).flatMap visible := hdrop _
    _ = (splitLines cs).flatMap visible := by simp only [List.flatMap_map, visible_trim]
    _ = visible (joinLines (splitLines cs)) := (visible_joinLines _).symm
    _ = visible cs := by rw [joinLines_splitLines]

theorem visible_normalizeLines (cs : List Char) : visible (normalizeLines cs) = visible cs := by
  rw [normalizeLines_eq, visible_joinLines, flatMap_visible_lines]

end Evomark.Text
