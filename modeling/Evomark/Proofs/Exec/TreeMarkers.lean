import Evomark.Exec.TreePass
import Evomark.Proofs.Document.Siblings
import Evomark.Proofs.Exec.Places
/-!
# Markers in a tree

Taking the markers behind a slot away (`Sound.consumeMarker`, `Sound.stripMarkersAfter`) and putting new ones
there (`put_warnings`, `put_halt`) does to the siblings what `afterMarker`, `stripMarkers`, `warningMarkers`
and `haltMarker` say of the nodes that stand at them.
-/

namespace Evomark.Tree

section

variable {t : Tree} {p c : Nat} {pre rest : List Nat} {n : Node} {ns : List Node}

/-- A test that does not look at slots or at children gives the same for a node and what stands there. -/
theorem Shows.test_eq (h : t.Shows c n) {test : Node → Bool}
    (htest : ∀ n, test n = test (.leaf { n.label with slot := none })) : test n = test (t.node c) := by
  rw [htest n, htest (t.node c), h.label_eq]
  rfl

theorem Shows.isMarker_eq (h : t.Shows c n) : n.isMarker = (t.node c).isMarker := h.test_eq fun _ => rfl

theorem Shows.isWarningMarker_eq (h : t.Shows c n) : n.isWarningMarker = (t.node c).isWarningMarker :=
  h.test_eq fun _ => rfl

theorem Shows.isHaltMarker_eq (h : t.Shows c n) : n.isHaltMarker = (t.node c).isHaltMarker :=
  h.test_eq fun _ => rfl

theorem Shows.isMarkerSep_eq (h : t.Shows c n) : n.isMarkerSep = (t.node c).isMarkerSep :=
  h.test_eq fun _ => rfl

/-! ## Markers taken away -/

/-- A marker is taken away with the separator that belongs to it. -/
theorem Sound.pruned_consumeMarker (ht : t.Sound) (hc : t.children p = pre ++ c :: rest) (hn : t.Shows c n)
    (hns : t.ShowsAll rest ns) :
    ∃ gone rest', rest = gone ++ rest' ∧ t.Pruned (t.consumeMarker c) p (c :: gone) ∧
      t.ShowsAll rest' (afterMarker n ns) := by
  have hmem := mem_of_siblings hc
  have halone := pruned_remove ht hmem
  rw [consumeMarker, ht.nextSibling?_eq hc, ← hn.isWarningMarker_eq]
  cases ns with
  | nil =>
    obtain rfl := hns.ids_eq_nil
    refine ⟨[], [], rfl, ?_, showsAll_nil⟩
    simpa using halone
  | cons m ms =>
    obtain ⟨sep, more, rfl, hm, hms⟩ := hns.exists_cons
    simp only [List.head?_cons, ← hm.isMarkerSep_eq, afterMarker]
    by_cases hboth : (n.isWarningMarker && m.isMarkerSep) = true
    · obtain ⟨hwarning, hsep⟩ := Bool.and_eq_true_iff.1 hboth
      have hp := lt_of_mem_children hmem
      have hnext : sep ∈ t.children p := hc ▸ List.mem_append_right _ (List.mem_cons_of_mem _ List.mem_cons_self)
      have hne : c ≠ sep := fun heq => (ht.not_mem_siblings hc).2 (heq ▸ List.mem_cons_self)
      have hpruned := pruned_remove ht hnext
      have hmem' : c ∈ (t.remove sep).children p :=
        (hpruned.mem_children_iff hp).2 ⟨hmem, by simpa using hne⟩
      have hall := hpruned.trans (pruned_remove (hpruned.reworks.edits.sound ht) hmem') ht hp
      simp only [hwarning, hsep, if_true, Bool.and_self]
      exact ⟨[sep], more, rfl, hall.perm (List.Perm.swap _ _ _), hms⟩
    · rw [if_neg hboth]
      refine ⟨[], sep :: more, rfl, ?_, showsAll_cons.2 ⟨hm, hms⟩⟩
      rw [Bool.and_eq_true, not_and] at hboth
      by_cases hwarning : n.isWarningMarker = true
      · simpa [hwarning, hboth hwarning] using halone
      · simpa [hwarning] using halone

/-- What is left behind a marker stands there when the marker has been taken away. -/
theorem Sound.consumeMarker (ht : t.Sound) (hc : t.children p = pre ++ c :: rest) (hn : t.Shows c n)
    (hns : t.ShowsAll rest ns) :
    ∃ gone rest', rest = gone ++ rest' ∧ t.Pruned (t.consumeMarker c) p (c :: gone) ∧
      (t.consumeMarker c).children p = pre ++ rest' ∧
      (t.consumeMarker c).ShowsAll rest' (afterMarker n ns) := by
  obtain ⟨gone, rest', rfl, hpruned, hafter⟩ := ht.pruned_consumeMarker hc hn hns
  have hp := lt_of_mem_children (mem_of_siblings hc)
  exact ⟨gone, rest', rfl, hpruned, hpruned.children_append ht hp hc, hpruned.showsAll ht hc hafter⟩

/-- All markers right behind a node are taken away if there are turns enough. -/
theorem Sound.stripMarkersWithin {turns : Nat} (ht : t.Sound) (hc : t.children p = pre ++ c :: rest)
    (hns : t.ShowsAll rest ns) (hturns : rest.length ≤ turns) :
    ∃ gone rest', rest = gone ++ rest' ∧ t.Pruned (t.stripMarkersWithin c turns) p gone ∧
      (t.stripMarkersWithin c turns).ShowsAll rest' (stripMarkers ns) := by
  induction turns generalizing t rest ns with
  | zero =>
    obtain rfl : rest = [] := List.length_eq_zero_iff.1 (Nat.le_zero.1 hturns)
    obtain rfl := hns.eq_nil
    exact ⟨[], [], rfl, .refl t p, showsAll_nil⟩
  | succ turns ih =>
    rw [Tree.stripMarkersWithin, ht.nextSibling?_eq hc]
    cases ns with
    | nil =>
      obtain rfl := hns.ids_eq_nil
      exact ⟨[], [], rfl, .refl t p, showsAll_nil⟩
    | cons m ms =>
      obtain ⟨d, more, rfl, hm, hms⟩ := hns.exists_cons
      simp only [List.head?_cons, ← hm.isMarker_eq]
      by_cases hmarker : m.isMarker = true
      · have hd : t.children p = pre ++ [c] ++ d :: more := by rw [hc, List.append_assoc]; rfl
        obtain ⟨gone, rest', rfl, hpruned, hchildren, hafter⟩ := ht.consumeMarker hd hm hms
        have hleft : (t.consumeMarker d).children p = pre ++ c :: rest' := by
          rw [hchildren, List.append_assoc]
          rfl
        obtain ⟨gone', rest'', rfl, hpruned', hstrip⟩ := ih (hpruned.reworks.edits.sound ht) hleft hafter
          (by simp only [List.length_cons, List.length_append] at hturns; omega)
        have hp := lt_of_mem_children (mem_of_siblings hd)
        rw [if_pos hmarker, stripMarkers_of_marker hmarker]
        exact ⟨d :: gone ++ gone', rest'', by simp, hpruned.trans hpruned' ht hp, hstrip⟩
      · rw [if_neg hmarker, stripMarkers_of_not_marker (by simpa using hmarker)]
        exact ⟨[], d :: more, rfl, .refl t p, showsAll_cons.2 ⟨hm, hms⟩⟩

/-- No marker is left right behind a node: a turn takes away one sibling at least, and a tree has slots for
all. -/
theorem Sound.stripMarkersAfter (ht : t.Sound) (hc : t.children p = pre ++ c :: rest)
    (hns : t.ShowsAll rest ns) :
    ∃ gone rest', rest = gone ++ rest' ∧ t.Pruned (t.stripMarkersAfter c) p gone ∧
      (t.stripMarkersAfter c).children p = pre ++ c :: rest' ∧
      (t.stripMarkersAfter c).ShowsAll rest' (stripMarkers ns) := by
  obtain ⟨gone, rest', rfl, hpruned, hstrip⟩ := ht.stripMarkersWithin hc hns (ht.length_siblings_le hc)
  have hp := lt_of_mem_children (mem_of_siblings hc)
  have hassoc : t.children p = pre ++ [c] ++ (gone ++ rest') := by rw [hc, List.append_assoc]; rfl
  exact ⟨gone, rest', rfl, hpruned,
    (hpruned.children_append ht hp hassoc).trans (List.append_assoc _ _ _), hstrip⟩

/-! ## Markers put -/

/-- The marker of warnings is put right behind a node, and its separator behind it. -/
theorem put_warnings (ht : t.Sound) (hc : t.children p = pre ++ c :: rest) (warnings : List String) :
    ∃ new, Put t (t.putWarnings c warnings) p (pre ++ [c]) new rest (warningMarkers warnings) := by
  rw [putWarnings, warningMarkers]
  split
  · exact ⟨[], .nil (by rw [hc, List.append_assoc]; rfl)⟩
  have hp := lt_of_mem_children (mem_of_siblings hc)
  have hmarker (marker body literal : Label) := put_marker ht hc marker body literal
  have hfst (marker : Label) : (t.addSibling c marker).1 = t.slots.size := fst_addSibling t c marker
  have hbody (marker body : Label) :
      ((t.addSibling c marker).2.pushChild t.slots.size body).1 = t.slots.size + 1 :=
    size_addSibling marker (ht.parent?_eq hc)
  simp only [hfst, hbody]
  refine ⟨_, (hmarker _ _ _).trans (put_addSibling ?_ ((hmarker _ _ _).relists.children_eq hp) _) ht hp⟩
  exact (hmarker _ _ _).reworks.edits.sound ht

/-- The marker of where a pass ended is put right behind a node, unless one follows. -/
theorem put_halt (ht : t.Sound) (hc : t.children p = pre ++ c :: rest) (hns : t.ShowsAll rest ns) :
    ∃ new, Put t (t.putHalt c) p (pre ++ [c]) new rest (if haltIsMarked ns then [] else [haltMarker]) := by
  have hmarked : ((t.nextMeaningful? c).map fun next => (t.node next).isHaltMarker).getD false =
      haltIsMarked ns := by
    rw [ht.nextMeaningful?_eq hc]
    clear hc
    induction ns generalizing rest with
    | nil =>
      rw [hns.ids_eq_nil]
      rfl
    | cons n ms ih =>
      obtain ⟨d, more, rfl, hn, hms⟩ := hns.exists_cons
      have hsep : (n.kind == .sep) = !(t.kind d != .sep) := by rw [hn.kind_eq, bne, Bool.not_not]
      rw [List.find?_cons, haltIsMarked, List.dropWhile_cons, hsep]
      cases t.kind d != .sep with
      | true => exact hn.isHaltMarker_eq.symm
      | false => exact ih hms
  rw [putHalt, hmarked]
  split
  · exact ⟨[], .nil (by rw [hc, List.append_assoc]; rfl)⟩
  · exact ⟨_, put_addSibling ht hc _⟩

end

end Evomark.Tree
