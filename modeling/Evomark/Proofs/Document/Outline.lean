import Evomark.Document.Expectation
import Evomark.Proofs.Text.Lines
import Evomark.Registry
/-!
# What an outline tells of a document

The outline of a document gives the depth and the kind of every node back, and its text but for one
thing: a line feed is written as a backslash and an `n`, and so is a backslash with an `n` behind it.
Two documents have the same outline exactly if they have the same shape once such pairs are read as
line feeds (`Node.outline_eq_outline_iff`). Where no text has such a pair, the outline tells the shape
(`Node.outline_tells_shape`).

The lines of an outline end at its line feeds (`Node.splitLines_outline`), and a line tells what it
was made from (`Node.indentedLine_inj`), since the name of a kind has no space in it.
-/

namespace Evomark

/-! ## Texts on one line -/

namespace Label

/-- A text with each backslash in front of an `n` read as a line feed, together with the `n`. -/
def unescaped : List Char → List Char
  | '\\' :: 'n' :: rest => '\n' :: unescaped rest
  | c :: rest => c :: unescaped rest
  | [] => []

/-- No backslash has an `n` behind it. -/
def IsPlain (cs : List Char) : Prop := ¬ ['\\', 'n'] <:+: cs

theorem oneLine_cons {c : Char} (hc : c ≠ '\n') (rest : List Char) : oneLine (c :: rest) = c :: oneLine rest := by
  simp [oneLine, hc]

theorem oneLine_break (rest : List Char) : oneLine ('\n' :: rest) = '\\' :: 'n' :: oneLine rest := rfl

theorem oneLine_append (cs ds : List Char) : oneLine (cs ++ ds) = oneLine cs ++ oneLine ds :=
  List.flatMap_append

theorem oneLine_of_not_mem {cs : List Char} (h : '\n' ∉ cs) : oneLine cs = cs := by
  induction cs with
  | nil => rfl
  | cons c rest ih =>
    rw [List.mem_cons, not_or] at h
    rw [oneLine_cons (Ne.symm h.1), ih h.2]

theorem oneLine_eq_nil_iff {cs : List Char} : oneLine cs = [] ↔ cs = [] := by
  refine ⟨fun h => ?_, fun h => by rw [h]; rfl⟩
  cases cs with
  | nil => rfl
  | cons c rest =>
    by_cases hc : c = '\n'
    · rw [hc, oneLine_break] at h
      cases h
    · rw [oneLine_cons hc] at h
      cases h

theorem not_mem_oneLine (cs : List Char) : '\n' ∉ oneLine cs := by
  intro h
  obtain ⟨c, -, hc⟩ := List.mem_flatMap.1 h
  split at hc
  · exact absurd hc (by decide)
  · rename_i hne
    exact hne (List.mem_singleton.1 hc).symm

theorem unescaped_cons {c : Char} {rest : List Char} (h : ¬ (c = '\\' ∧ rest.head? = some 'n')) :
    unescaped (c :: rest) = c :: unescaped rest := by
  rw [unescaped]
  rintro more rfl rfl
  exact h ⟨rfl, rfl⟩

theorem unescaped_of_isPlain {cs : List Char} (h : IsPlain cs) : unescaped cs = cs := by
  induction cs with
  | nil => rfl
  | cons c rest ih =>
    rw [unescaped_cons, ih fun hin => h (List.infix_cons hin)]
    rintro ⟨rfl, hn⟩
    obtain ⟨more, rfl⟩ := List.head?_eq_some_iff.1 hn
    exact h ⟨[], more, rfl⟩

/-- The line of a text is read as the text is. -/
theorem unescaped_oneLine (cs : List Char) : unescaped (oneLine cs) = unescaped cs := by
  fun_induction unescaped cs with
  | case1 rest ih =>
    rw [oneLine_cons (by decide), oneLine_cons (by decide), unescaped, ih]
  | case2 c rest hpair ih =>
    by_cases hc : c = '\n'
    · rw [hc, oneLine_break, unescaped, ih]
    · rw [oneLine_cons hc, unescaped_cons, ih]
      rintro ⟨rfl, hhead⟩
      -- the line starts with `n` only where the text does
      cases rest with
      | nil => simp [oneLine] at hhead
      | cons d more =>
        by_cases hd : d = '\n'
        · rw [hd, oneLine_break, List.head?_cons] at hhead
          exact absurd hhead (by decide)
        · rw [oneLine_cons hd, List.head?_cons, Option.some.injEq] at hhead
          exact hpair more rfl (by rw [hhead])
  | case3 => rfl

/-- A text that is read from a line is written as that line. -/
theorem oneLine_unescaped (cs : List Char) : oneLine (unescaped cs) = oneLine cs := by
  fun_induction unescaped cs with
  | case1 rest ih => rw [oneLine_break, ih, oneLine_cons (by decide), oneLine_cons (by decide)]
  | case2 c rest hpair ih =>
    by_cases hc : c = '\n'
    · rw [hc, oneLine_break, oneLine_break, ih]
    · rw [oneLine_cons hc, oneLine_cons hc, ih]
  | case3 => rfl

/-- Two texts have the same line if they are read the same. -/
theorem oneLine_eq_oneLine_iff {cs ds : List Char} : oneLine cs = oneLine ds ↔ unescaped cs = unescaped ds := by
  refine ⟨fun h => ?_, fun h => ?_⟩
  · rw [← unescaped_oneLine cs, h, unescaped_oneLine]
  · rw [← oneLine_unescaped cs, h, oneLine_unescaped]

end Label

/-! ## Lines -/

/-- The name of a kind is one word. -/
theorem Kind.name_spaceless (k : Kind) : ' ' ∉ k.name.toList ∧ '\n' ∉ k.name.toList ∧ k.name.toList ≠ [] := by
  cases k <;> decide

theorem Kind.name_inj {k l : Kind} (h : k.name = l.name) : k = l := by
  cases k <;> cases l <;> first | rfl | exact absurd h (by decide)

namespace Label

/-- What stands behind the kind in the line of a label: its text, if there is any. -/
def lineText (label : Label) : List Char :=
  if label.content.toList = [] then [] else ' ' :: oneLine label.content.toList

theorem toList_line (label : Label) : label.line.toList = label.kind.name.toList ++ label.lineText := by
  obtain ⟨-, hbreak, -⟩ := label.kind.name_spaceless
  unfold line lineText
  by_cases hempty : label.content.toList = []
  · rw [if_pos hempty, if_pos (by rw [String.toList_eq_nil_iff.1 hempty]; rfl), List.append_nil]
  · rw [if_neg hempty, if_neg, String.toList_ofList, oneLine_append, oneLine_of_not_mem hbreak,
      oneLine_cons (by decide)]
    intro h
    exact hempty (by rw [String.isEmpty_iff.1 h]; rfl)

/-- The first space of a line ends the kind. -/
theorem cut_line (label : Label) :
    label.line.toList.takeWhile (· != ' ') = label.kind.name.toList ∧
      label.line.toList.dropWhile (· != ' ') = label.lineText := by
  rw [toList_line]
  refine Text.takeWhile_append_stop (fun c hc => ?_) fun c hc => ?_
  · rw [bne_iff_ne]
    rintro rfl
    exact label.kind.name_spaceless.1 hc
  · unfold lineText at hc
    split at hc
    · exact absurd hc (by simp)
    · obtain rfl := Option.some.inj hc
      rfl

theorem lineText_inj {a b : Label} :
    a.lineText = b.lineText ↔ oneLine a.content.toList = oneLine b.content.toList := by
  unfold lineText
  by_cases ha : a.content.toList = [] <;> by_cases hb : b.content.toList = []
  · simp only [ha, hb]
  · rw [if_pos ha, if_neg hb, ha]
    exact iff_of_false (List.cons_ne_nil _ _).symm fun h => hb (oneLine_eq_nil_iff.1 h.symm)
  · rw [if_neg ha, if_pos hb, hb]
    exact iff_of_false (List.cons_ne_nil _ _) fun h => ha (oneLine_eq_nil_iff.1 h)
  · rw [if_neg ha, if_neg hb, List.cons_inj_right]

/-- A line tells the kind and the text on one line. -/
theorem line_inj {a b : Label} :
    a.line.toList = b.line.toList ↔
      a.kind = b.kind ∧ oneLine a.content.toList = oneLine b.content.toList := by
  rw [← lineText_inj]
  constructor
  · intro h
    obtain ⟨hname, htext⟩ := a.cut_line
    obtain ⟨hname', htext'⟩ := b.cut_line
    rw [h, hname'] at hname
    rw [h, htext'] at htext
    exact ⟨Kind.name_inj (String.toList_inj.1 hname.symm), htext.symm⟩
  · rintro ⟨hkind, htext⟩
    rw [toList_line, toList_line, hkind, htext]

end Label

namespace Node

/-- The line of a label at a depth, without its line feed. -/
def indentedLine (entry : Nat × Label) : List Char :=
  List.replicate (2 * entry.1) ' ' ++ entry.2.line.toList

/-- The indentation ends where the name of the kind starts. -/
theorem cut_indentedLine (entry : Nat × Label) :
    (indentedLine entry).takeWhile (· == ' ') = List.replicate (2 * entry.1) ' ' ∧
      (indentedLine entry).dropWhile (· == ' ') = entry.2.line.toList := by
  refine Text.takeWhile_append_stop (fun c hc => by simp [List.eq_of_mem_replicate hc]) fun c hc => ?_
  obtain ⟨hspace, -, hne⟩ := entry.2.kind.name_spaceless
  obtain ⟨d, rest, hname⟩ := List.exists_cons_of_ne_nil hne
  rw [Label.toList_line, hname] at hc
  obtain rfl := Option.some.inj hc
  rw [beq_eq_false_iff_ne]
  rintro rfl
  exact hspace (by rw [hname]; exact .head _)

/-- A line of an outline tells the depth, the kind and the text on one line. -/
theorem indentedLine_inj {a b : Nat × Label} :
    indentedLine a = indentedLine b ↔
      a.1 = b.1 ∧ a.2.kind = b.2.kind ∧
        Label.oneLine a.2.content.toList = Label.oneLine b.2.content.toList := by
  rw [← Label.line_inj]
  constructor
  · intro h
    obtain ⟨hdepth, hline⟩ := cut_indentedLine a
    obtain ⟨hdepth', hline'⟩ := cut_indentedLine b
    rw [h, hdepth'] at hdepth
    rw [h, hline'] at hline
    have hlength := congrArg List.length hdepth
    rw [List.length_replicate, List.length_replicate] at hlength
    exact ⟨by omega, hline.symm⟩
  · rintro ⟨hdepth, hline⟩
    rw [indentedLine, indentedLine, hdepth, hline]

theorem not_mem_indentedLine (entry : Nat × Label) : '\n' ∉ indentedLine entry := by
  rw [indentedLine, Label.toList_line, Label.lineText]
  simp only [List.mem_append, not_or]
  refine ⟨fun h => absurd (List.eq_of_mem_replicate h) (by decide), entry.2.kind.name_spaceless.2.1, ?_⟩
  split
  · exact List.not_mem_nil
  · rw [List.mem_cons, not_or]
    exact ⟨by decide, Label.not_mem_oneLine _⟩

/-! ## Outlines -/

/-- The lines of an outline are those of its labels, each with a line feed at its end. -/
theorem splitLines_outline (n : Node) :
    Text.splitLines n.outline.toList = n.preorder.map indentedLine ++ [[]] := by
  rw [outline, String.toList_ofList]
  induction n.preorder with
  | nil => rfl
  | cons entry rest ih =>
    obtain ⟨depth, label⟩ := entry
    rw [List.flatMap_cons, List.map_cons, List.cons_append, ← ih]
    show Text.splitLines (indentedLine (depth, label) ++ ['\n'] ++ _) = _
    rw [List.append_assoc, List.singleton_append, Text.splitLines_append_break,
      Text.splitLines_of_not_mem (not_mem_indentedLine _)]
    rfl

/-- The nodes of a document by depth, kind and text, parents before children. -/
def shape (n : Node) : List (Nat × Kind × List Char) :=
  n.preorder.map fun (depth, label) => (depth, label.kind, label.content.toList)

/-- The shape of a document with its texts read from their lines. -/
def shownShape (n : Node) : List (Nat × Kind × List Char) :=
  n.shape.map fun (depth, kind, text) => (depth, kind, Label.unescaped text)

/-- Two documents have the same outline exactly if they have the same lines. -/
theorem outline_inj {n m : Node} :
    n.outline = m.outline ↔ n.preorder.map indentedLine = m.preorder.map indentedLine := by
  refine ⟨fun h => ?_, fun h => ?_⟩
  · have hsplit := n.splitLines_outline
    rw [h, m.splitLines_outline] at hsplit
    exact (List.append_cancel_right hsplit).symm
  · have hjoin (k : Node) : k.outline.toList = Text.joinLines (k.preorder.map indentedLine ++ [[]]) := by
      rw [← splitLines_outline, Text.joinLines_splitLines]
    rw [← String.toList_inj, hjoin, hjoin, h]

/-- What two functions do not tell apart in single entries, they do not tell apart in lists. -/
theorem map_eq_map_congr {α β γ : Type} {f : α → β} {g : α → γ} (h : ∀ a b, f a = f b ↔ g a = g b)
    (xs ys : List α) : xs.map f = ys.map f ↔ xs.map g = ys.map g := by
  induction xs generalizing ys with
  | nil => cases ys <;> simp
  | cons x xs ih =>
    cases ys with
    | nil => simp
    | cons y ys => simp only [List.map_cons, List.cons.injEq, h x y, ih ys]

/-- The outlines of two documents are equal exactly if the documents have the same nodes at the same
depths, with the same texts once a backslash with an `n` behind it is read as a line feed. -/
theorem outline_eq_outline_iff {n m : Node} : n.outline = m.outline ↔ n.shownShape = m.shownShape := by
  rw [outline_inj, shownShape, shownShape, shape, shape, List.map_map, List.map_map]
  refine map_eq_map_congr (fun a b => ?_) _ _
  rw [indentedLine_inj, Label.oneLine_eq_oneLine_iff]
  simp only [Function.comp_apply, Prod.mk.injEq]

theorem shownShape_of_isPlain {n : Node} (h : ∀ entry ∈ n.shape, Label.IsPlain entry.2.2) :
    n.shownShape = n.shape := by
  refine List.map_congr_left (g := id) (fun entry he => ?_) |>.trans (List.map_id _)
  obtain ⟨depth, kind, text⟩ := entry
  show (depth, kind, Label.unescaped text) = _
  rw [Label.unescaped_of_isPlain (h _ he)]
  rfl

/-- Two documents are taken for the same exactly if their nodes have the same depths, kinds and texts, where
in a text a backslash with an `n` behind it counts as a line feed. So they have the same shape if no text has
such a pair. -/
theorem outline_tells_shape (n m : Node) :
    (n.shapeDifference? m = none ↔ n.outline = m.outline) ∧
      (n.outline = m.outline ↔ n.shownShape = m.shownShape) ∧
      ((∀ entry ∈ n.shape ++ m.shape, Label.IsPlain entry.2.2) →
        (n.outline = m.outline ↔ n.shape = m.shape)) := by
  refine ⟨?_, outline_eq_outline_iff, fun h => ?_⟩
  · unfold shapeDifference?
    split
    · simp_all
    · simp_all
  · rw [List.forall_mem_append] at h
    rw [outline_eq_outline_iff, shownShape_of_isPlain h.1, shownShape_of_isPlain h.2]

/-- A line feed and a backslash with an `n` behind it look the same in an outline. -/
theorem outline_backslash :
    ¬ ∀ n m : Node, n.shapeDifference? m = none → n.shape = m.shape := by
  intro h
  have hshape := h (Registry.standard.parse "a\\nb").document (Registry.standard.parse "a\nb").document
    (by decide +kernel)
  exact absurd hshape (by decide +kernel)

end Node

end Evomark
