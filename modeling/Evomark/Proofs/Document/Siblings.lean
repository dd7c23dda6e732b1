import Evomark.Proofs.Document.Reworks
/-!
# Nodes among their siblings

What stands before and behind a child is read off the list of the children (`Sound.nextSibling?_eq`,
`Sound.nextMeaningful?_eq`). `Tree.Put` says that nodes have been put in new slots between two children.
-/

namespace Evomark.Tree

/-! ## Siblings -/

section

variable {pre rest : List Nat} {c new : Nat}

theorem successor_append (h : c ∉ pre) : successor c (pre ++ c :: rest) = rest.head? := by
  induction pre with
  | nil => rw [List.nil_append, successor, if_pos rfl]
  | cons d pre ih =>
    rw [List.mem_cons, not_or] at h
    rw [List.cons_append, successor, if_neg (Ne.symm h.1), ih h.2]

theorem insertBehind_append (h : c ∉ pre) :
    insertBehind c new (pre ++ c :: rest) = pre ++ c :: new :: rest := by
  induction pre with
  | nil => rw [List.nil_append, List.nil_append, insertBehind, if_pos rfl]
  | cons d pre ih =>
    rw [List.mem_cons, not_or] at h
    rw [List.cons_append, insertBehind, if_neg (Ne.symm h.1), ih h.2, List.cons_append]

variable {t : Tree} {p : Nat}

theorem mem_of_siblings (hc : t.children p = pre ++ c :: rest) : c ∈ t.children p :=
  hc ▸ List.mem_append_cons_self

/-- A child stands neither before nor behind itself. -/
theorem Sound.not_mem_siblings (ht : t.Sound) (hc : t.children p = pre ++ c :: rest) : c ∉ pre ∧ c ∉ rest := by
  have hnodup := ht.nodup p
  rw [hc, List.nodup_append] at hnodup
  exact ⟨fun h => hnodup.2.2 c h c List.mem_cons_self rfl, (List.nodup_cons.1 hnodup.2.1).1⟩

/-- A tree has slots for all siblings. -/
theorem Sound.length_siblings_le (ht : t.Sound) (hc : t.children p = pre ++ c :: rest) :
    rest.length ≤ t.slots.size := by
  have hle : (t.children p).length ≤ (List.range t.slots.size).length :=
    (List.subperm_of_subset (ht.nodup p) fun d hd => List.mem_range.2 (lt_of_isAttached (ht.child hd).2.2.1)).length_le
  rw [hc, List.length_range, List.length_append, List.length_cons] at hle
  omega

theorem Sound.parent?_eq (ht : t.Sound) (hc : t.children p = pre ++ c :: rest) : t.parent? c = some p :=
  (ht.child (mem_of_siblings hc)).2.2.2

theorem Sound.nextSibling?_eq (ht : t.Sound) (hc : t.children p = pre ++ c :: rest) :
    t.nextSibling? c = rest.head? := by
  rw [nextSibling?, ht.parent?_eq hc, Option.bind_some, hc, successor_append (ht.not_mem_siblings hc).1]

theorem Sound.nextMeaningful?_eq (ht : t.Sound) (hc : t.children p = pre ++ c :: rest) :
    t.nextMeaningful? c = rest.find? fun d => t.kind d != .sep := by
  have hpre : ∀ d ∈ pre, (d != c) = true := fun d hd =>
    bne_iff_ne.2 fun heq => (ht.not_mem_siblings hc).1 (heq ▸ hd)
  have hdrop : (t.children p).dropWhile (· != c) = c :: rest := by
    rw [hc, List.dropWhile_append_of_pos hpre, List.dropWhile_cons_of_neg (by simp)]
  rw [nextMeaningful?, ht.parent?_eq hc]
  simp only [Option.bind_some, hdrop]

variable {t' : Tree} {gone : List Nat}

/-- The siblings that are left when those in between are taken away. -/
theorem Pruned.children_append (h : t.Pruned t' p gone) (ht : t.Sound) (hp : p < t.slots.size)
    (hc : t.children p = pre ++ (gone ++ rest)) : t'.children p = pre ++ rest := by
  have hnodup := ht.nodup p
  rw [hc, List.nodup_append] at hnodup
  obtain ⟨-, hnodup, hpre⟩ := hnodup
  have hrest := (List.nodup_append.1 hnodup).2.2
  rw [h.relists.children_eq hp, hc, List.filter_append, List.filter_append,
    List.filter_eq_self.2 fun d hd => by simpa using fun hg => hpre d hd d (List.mem_append_left _ hg) rfl,
    List.filter_eq_nil_iff.2 fun d hd => by simpa using hd,
    List.filter_eq_self.2 fun d hd => by simpa using fun hg => hrest d hg d hd rfl, List.nil_append]

/-- What stands at siblings that are left stays there. -/
theorem Pruned.showsAll (h : t.Pruned t' p gone) (ht : t.Sound) (hc : t.children p = pre ++ (gone ++ rest))
    {ns : List Node} (hns : t.ShowsAll rest ns) : t'.ShowsAll rest ns := by
  have hnodup := (List.nodup_append.1 (hc ▸ ht.nodup p)).2.1
  refine showsAll_of_below ht (fun d hd => h.sameBelow ht ?_ fun hg => ?_) hns
  · rw [hc]
    exact List.mem_append_right _ (List.mem_append_right _ hd)
  · exact (List.nodup_append.1 hnodup).2.2 d hg d hd rfl

end

/-! ## Nodes put between siblings -/

/-- The tree `t'` is `t` with nodes in new slots, below `p` and between the children `pre` and `rest`. -/
structure Put (t t' : Tree) (p : Nat) (pre new rest : List Nat) (ns : List Node) : Prop where
  reworks : t.Reworks t' (· = p)
  relists : t.Relists t' p (pre ++ (new ++ rest))
  shows : t'.ShowsAll new ns

section

variable {t t' t₂ : Tree} {p c : Nat} {pre rest new new' : List Nat} {ns ns' : List Node}

theorem Put.nil (hc : t.children p = pre ++ rest) : Put t t p pre [] rest [] := by
  refine ⟨(Reworks.refl t).mono fun _ h => h.elim, ?_, showsAll_nil⟩
  rw [List.nil_append, ← hc]
  exact .refl t p

/-- What stands at children stays there. -/
theorem Put.keeps (h : Put t t' p pre new rest ns) (ht : t.Sound) {ids : List Nat} {ms : List Node}
    (hids : ∀ d ∈ ids, d ∈ t.children p) (hms : t.ShowsAll ids ms) : t'.ShowsAll ids ms := by
  refine showsAll_of_below ht (fun d hd => ?_) hms
  obtain ⟨hlt, -, hattached, -⟩ := ht.child (hids d hd)
  exact h.reworks.sameBelow ht hattached fun q hq =>
    Nat.ne_of_gt (Nat.lt_of_lt_of_le hlt (ht.le_of_mem_below hq))

/-- More is put behind what has been put. -/
theorem Put.trans (h : Put t t' p pre new rest ns) (h' : Put t' t₂ p (pre ++ new) new' rest ns')
    (ht : t.Sound) (hp : p < t.slots.size) : Put t t₂ p pre (new ++ new') rest (ns ++ ns') := by
  refine ⟨(h.reworks.trans h'.reworks).mono fun _ htouched => htouched.elim id id, ?_, .append ?_ h'.shows⟩
  · rw [List.append_assoc, ← List.append_assoc pre]
    exact h.relists.trans h'.relists
  · refine h'.keeps (h.reworks.edits.sound ht) (fun d hd => ?_) h.shows
    rw [h.relists.children_eq hp]
    exact List.mem_append_right _ (List.mem_append_left _ hd)

/-- What has been put gets a new child. -/
theorem Put.push (h : Put t t' p pre new rest ns) (hp : p < t.slots.size) {q : Nat} {label : Label}
    (hq : t.slots.size ≤ q) (hattached : t'.isAttached q = true)
    (hns : (t'.pushChild q label).2.ShowsAll new ns') : Put t (t'.pushChild q label).2 p pre new rest ns' := by
  have hpush := reworks_pushChild hattached label
  refine ⟨(h.reworks.trans hpush).mono fun hlt htouched => ?_, ?_, hns⟩
  · exact htouched.elim id fun heq => absurd hq (Nat.not_le_of_lt (heq ▸ hlt))
  · exact h.relists.trans (h.relists.children_eq hp ▸ .of_slot? (hpush.slot?_eq
      (Nat.lt_of_lt_of_le hp h.reworks.size_le) (Nat.ne_of_lt (Nat.lt_of_lt_of_le hp hq))))

theorem fst_addSibling (t : Tree) (c : Nat) (label : Label) : (t.addSibling c label).1 = t.slots.size := by
  rw [addSibling]
  cases t.parent? c <;> rfl

theorem put_addSibling (ht : t.Sound) (hc : t.children p = pre ++ c :: rest) (label : Label) :
    Put t (t.addSibling c label).2 p (pre ++ [c]) [t.slots.size] rest [.leaf label] := by
  have hmem := mem_of_siblings hc
  have hp := lt_of_isAttached (ht.child hmem).2.1
  have hslot (q : Nat) := slot?_addSibling label q (ht.parent?_eq hc) hp
  obtain ⟨s, hs⟩ := exists_slot? hp
  have hchildren : s.children = pre ++ c :: rest := by rw [← hc, Tree.children, hs]; rfl
  refine ⟨reworks_addSibling ht hmem label, ?_, showsAll_singleton.2 ?_⟩
  · rw [Relists, hslot, if_neg (Nat.ne_of_lt hp), if_pos rfl, hs, Option.map_some, Option.map_some, hchildren,
      insertBehind_append (ht.not_mem_siblings hc).1, List.append_assoc]
    rfl
  · rw [Node.leaf, Shows, Tree.label, Tree.children, (hslot _).trans (if_pos rfl)]
    exact ⟨rfl, showsAll_nil⟩

/-- A node with a body is put right behind another. -/
theorem put_marker (ht : t.Sound) (hc : t.children p = pre ++ c :: rest) (marker body literal : Label) :
    Put t (((t.addSibling c marker).2.pushChild t.slots.size body).2.pushChild (t.slots.size + 1) literal).2
      p (pre ++ [c]) [t.slots.size] rest [⟨marker, [⟨body, [.leaf literal]⟩]⟩] := by
  have hp := lt_of_mem_children (mem_of_siblings hc)
  have hput := put_addSibling ht hc marker
  have hsize := size_addSibling marker (ht.parent?_eq hc)
  generalize (t.addSibling c marker).2 = t₁ at hput hsize ⊢
  have ht₁ := hput.reworks.edits.sound ht
  have hattached := (ht₁.child (mem_of_siblings (hput.relists.children_eq hp))).2.2.1
  have hmarker := showsAll_singleton.1 hput.shows
  have hnone : t₁.children t.slots.size = [] := hmarker.children.ids_eq_nil
  -- the body, a new node again, is the only child of the marker
  have hbody := shows_pushChild ht₁ hattached hmarker body
  have hputbody := hput.push hp (Nat.le_refl _) hattached (showsAll_singleton.2 hbody)
  have hchildren := (relists_pushChild hattached body).children_eq (lt_of_isAttached hattached)
  rw [hnone, hsize, List.nil_append] at hchildren
  generalize (t₁.pushChild t.slots.size body).2 = t₂ at hbody hputbody hchildren ⊢
  have ht₂ := hputbody.reworks.edits.sound ht
  have hattached₂ := (ht₂.child (hchildren ▸ List.mem_cons_self)).2.2.1
  have hleaf : t₂.Shows (t.slots.size + 1) (.leaf body) := by
    have := hbody.children
    rw [hchildren] at this
    exact showsAll_singleton.1 this
  refine hputbody.push hp (Nat.le_succ _) hattached₂ (showsAll_singleton.2 (shows_iff.2 ?_))
  have hslot := (reworks_pushChild hattached₂ literal).slot?_eq
    (lt_of_isAttached (ht₂.child (hchildren ▸ List.mem_cons_self)).2.1) (Nat.ne_of_lt (Nat.lt_succ_self _))
  rw [label_of_slot? hslot, children_of_slot? hslot, hchildren]
  exact ⟨hbody.label_eq, showsAll_singleton.2 (shows_pushChild ht₂ hattached₂ hleaf literal)⟩

end

end Evomark.Tree
