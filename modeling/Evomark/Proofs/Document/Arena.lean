import Mathlib.Data.List.Nodup
import Mathlib.Data.List.Perm.Basic
import Evomark.Document.Tree
/-!
# Well-formed trees

`Tree.WellFormed` says that the links of a tree agree: who is listed by whom, who is the parent of whom
and who has been removed. `Tree.Sound` says the same slot by slot, so that an edit has to look at few
slots only; a sound tree is well-formed (`Sound.wellFormed`), and every edit at an attached node keeps a
tree sound (`Edit.sound_apply`) and brings no removed node back (`Edit.removed_apply`).
-/

namespace Evomark.Tree

/-- The slot has been used and what stood there has been removed. -/
def Removed (t : Tree) (id : Nat) : Prop := id < t.slots.size ∧ t.isAttached id = false

/-- The links of a tree agree. -/
structure WellFormed (t : Tree) : Prop where
  root_attached : t.isAttached root = true
  /-- An attached node that is not the root is listed once, by its parent and by nothing else. -/
  listed_once : ∀ id, t.isAttached id = true → id ≠ root → ∃ p, t.parent? id = some p ∧
    t.isAttached p = true ∧ (t.children p).count id = 1 ∧ ∀ q, id ∈ t.children q → q = p
  /-- What an attached node lists is attached and points back. -/
  points_back : ∀ p, t.isAttached p = true → ∀ c ∈ t.children p,
    t.isAttached c = true ∧ t.parent? c = some p
  /-- What has been removed is not listed. -/
  unlisted : ∀ id, t.Removed id → ∀ p, t.isAttached p = true → id ∉ t.children p
  /-- Parents lead to the root without a cycle. -/
  climbs : ∀ id, t.isAttached id = true → ∃ above, (id :: above).Nodup ∧
    (id :: above).IsChain (fun c p => t.parent? c = some p) ∧ (id :: above).getLast? = some root
  /-- The size is the number of nodes below the root, the root included. -/
  size_eq : t.size = t.document.preorder.length

/-- The links of a tree agree, slot by slot. Children are greater than their parents. -/
structure Sound (t : Tree) : Prop where
  root_attached : t.isAttached root = true
  root_parent : t.parent? root = none
  child : ∀ {p c}, c ∈ t.children p →
    p < c ∧ t.isAttached p = true ∧ t.isAttached c = true ∧ t.parent? c = some p
  nodup : ∀ p, (t.children p).Nodup
  parent : ∀ {id}, t.isAttached id = true → id ≠ root → ∃ p, t.parent? id = some p ∧ id ∈ t.children p

/-! ## Slots after a change -/

section

variable (t : Tree) (i j : Nat)

theorem slot?_modify (f : Slot → Slot) :
    (t.modify i f).slot? j = if i = j then (t.slot? j).map f else t.slot? j :=
  Array.getElem?_modify

theorem size_modify (f : Slot → Slot) : (t.modify i f).slots.size = t.slots.size := Array.size_modify

theorem slot?_alloc (label : Label) (parent : Nat) :
    (t.alloc label parent).2.slot? j =
      if j = t.slots.size then some { label, parent := some parent } else t.slot? j :=
  Array.getElem?_push

theorem size_alloc (label : Label) (parent : Nat) :
    (t.alloc label parent).2.slots.size = t.slots.size + 1 := Array.size_push _

theorem slot?_eq_none (h : t.slots.size ≤ i) : t.slot? i = none := Array.getElem?_eq_none h

variable {t i}

theorem lt_of_isAttached (h : t.isAttached i = true) : i < t.slots.size := by
  by_contra hi
  rw [isAttached, slot?_eq_none t i (Nat.le_of_not_lt hi)] at h
  exact Bool.false_ne_true h

theorem exists_slot? (h : i < t.slots.size) : ∃ s, t.slot? i = some s := ⟨_, Array.getElem?_eq_getElem h⟩

theorem lt_of_mem_children {p : Nat} (h : i ∈ t.children p) : p < t.slots.size := by
  by_contra hp
  rw [children, slot?_eq_none t p (Nat.le_of_not_lt hp)] at h
  exact List.not_mem_nil h

end

/-! ## What is below a node -/

section

variable {t : Tree}

theorem mem_belowAll {depth d : Nat} {ids : List Nat} :
    d ∈ t.belowAll depth ids ↔ ∃ id ∈ ids, d ∈ t.below depth id := by
  induction ids with
  | nil => simp [belowAll]
  | cons id rest ih => simp [belowAll, ih]

theorem mem_below_self (depth id : Nat) : id ∈ t.below depth id := by
  cases depth <;> simp [below]

theorem mem_below_zero {id d : Nat} : d ∈ t.below 0 id ↔ d = id := by
  rw [below, List.mem_singleton]

theorem mem_below_succ {depth id d : Nat} :
    d ∈ t.below (depth + 1) id ↔ d = id ∨ ∃ c ∈ t.children id, d ∈ t.below depth c := by
  simp only [below, List.mem_cons, mem_belowAll]

/-- What is below a node is the node itself, or its parent is below the node. -/
theorem parent_mem_below {depth id d : Nat} (hd : d ∈ t.below depth id) (hne : d ≠ id) :
    ∃ p, d ∈ t.children p ∧ p ∈ t.below depth id := by
  induction depth generalizing id with
  | zero => exact absurd (mem_below_zero.1 hd) hne
  | succ depth ih =>
    obtain rfl | ⟨c, hc, hd⟩ := mem_below_succ.1 hd
    · exact absurd rfl hne
    · by_cases hdc : d = c
      · exact ⟨id, hdc ▸ hc, mem_below_self _ _⟩
      · obtain ⟨p, hp, hpc⟩ := ih hd hdc
        exact ⟨p, hp, mem_below_succ.2 (.inr ⟨c, hc, hpc⟩)⟩

namespace Sound

variable (h : t.Sound)

include h

theorem le_of_mem_below {depth id d : Nat} (hd : d ∈ t.below depth id) : id ≤ d := by
  induction depth generalizing id with
  | zero => exact Nat.le_of_eq (mem_below_zero.1 hd).symm
  | succ depth ih =>
    obtain rfl | ⟨c, hc, hd⟩ := mem_below_succ.1 hd
    · exact Nat.le_refl _
    · exact Nat.le_trans (Nat.le_of_lt (h.child hc).1) (ih hd)

theorem isAttached_parent {id p : Nat} (hid : t.isAttached id = true) (hp : t.parent? id = some p) :
    t.isAttached p = true := by
  have hne : id ≠ root := fun heq => by rw [heq, h.root_parent] at hp; cases hp
  obtain ⟨q, hq, hid⟩ := h.parent hid hne
  obtain rfl : p = q := Option.some.inj (hp.symm.trans hq)
  exact (h.child hid).2.1

theorem child_mem_below {depth id p c : Nat} (hp : p ∈ t.below depth id) (hdepth : p < id + depth)
    (hc : c ∈ t.children p) : c ∈ t.below depth id := by
  induction depth generalizing id with
  | zero => exact absurd (h.le_of_mem_below hp) (by omega)
  | succ depth ih =>
    refine mem_below_succ.2 (.inr ?_)
    obtain rfl | ⟨c', hc', hp⟩ := mem_below_succ.1 hp
    · exact ⟨c, hc, mem_below_self _ _⟩
    · have := (h.child hc').1
      exact ⟨c', hc', ih hp (by omega)⟩

theorem child_mem_descendants {id p c : Nat} (hp : p ∈ t.descendants id) (hc : c ∈ t.children p) :
    c ∈ t.descendants id :=
  h.child_mem_below hp (Nat.lt_of_lt_of_le (lt_of_mem_children hc) (Nat.le_add_left _ _)) hc

theorem isAttached_of_mem_below {depth id d : Nat} (hid : t.isAttached id = true)
    (hd : d ∈ t.below depth id) : t.isAttached d = true := by
  by_cases hne : d = id
  · rw [hne, hid]
  · obtain ⟨p, hp, -⟩ := parent_mem_below hd hne
    exact (h.child hp).2.2.1

theorem mem_descendants_root {id : Nat} (hid : t.isAttached id = true) : id ∈ t.descendants root := by
  induction id using Nat.strongRecOn with
  | ind id ih =>
    by_cases hne : id = root
    · rw [hne]
      exact mem_below_self _ _
    · obtain ⟨p, -, hp⟩ := h.parent hid hne
      obtain ⟨hlt, hattached, -⟩ := h.child hp
      exact h.child_mem_descendants (ih p hlt hattached) hp

/-- Nothing is below two nodes with the same parent. -/
theorem eq_of_mem_below {depth p c c' d : Nat} (hc : c ∈ t.children p) (hc' : c' ∈ t.children p)
    (hd : d ∈ t.below depth c) (hd' : d ∈ t.below depth c') : c = c' := by
  have hbelow {c q : Nat} (hc : c ∈ t.children p) (hq : q ∈ t.below depth c) : q ≠ p := by
    have := (h.child hc).1
    have := h.le_of_mem_below hq
    omega
  have hone {q q' d : Nat} (hq : d ∈ t.children q) (hq' : d ∈ t.children q') : q = q' :=
    Option.some.inj ((h.child hq).2.2.2.symm.trans (h.child hq').2.2.2)
  induction d using Nat.strongRecOn with
  | ind d ih =>
    by_cases hdc : d = c
    · by_cases hdc' : d = c'
      · rw [← hdc, hdc']
      · obtain ⟨q, hq, hqc'⟩ := parent_mem_below hd' hdc'
        exact absurd (hone hq (hdc ▸ hc)) (hbelow hc' hqc')
    · obtain ⟨q, hq, hqc⟩ := parent_mem_below hd hdc
      by_cases hdc' : d = c'
      · exact absurd (hone hq (hdc' ▸ hc')) (hbelow hc hqc)
      · obtain ⟨q', hq', hqc'⟩ := parent_mem_below hd' hdc'
        rw [hone hq' hq] at hqc'
        exact ih q (h.child hq).1 hqc hqc'

theorem nodup_below (depth id : Nat) : (t.below depth id).Nodup := by
  induction depth generalizing id with
  | zero =>
    rw [below]
    exact List.nodup_singleton id
  | succ depth ih =>
    have hall {ids : List Nat} (hids : ids.Nodup) (hmem : ∀ c ∈ ids, c ∈ t.children id) :
        (t.belowAll depth ids).Nodup := by
      induction ids with
      | nil =>
        rw [belowAll]
        exact List.nodup_nil
      | cons c rest ihrest =>
        rw [List.nodup_cons] at hids
        rw [List.forall_mem_cons] at hmem
        rw [belowAll, List.nodup_append]
        refine ⟨ih c, ihrest hids.2 hmem.2, fun d hd d' hd' heq => ?_⟩
        obtain ⟨c', hc', hdc'⟩ := mem_belowAll.1 hd'
        rw [← heq] at hdc'
        exact hids.1 (h.eq_of_mem_below hmem.1 (hmem.2 c' hc') hd hdc' ▸ hc')
    rw [below, List.nodup_cons]
    refine ⟨fun hmem => ?_, hall (h.nodup id) fun c hc => hc⟩
    obtain ⟨c, hc, hid⟩ := mem_belowAll.1 hmem
    have := (h.child hc).1
    have := h.le_of_mem_below hid
    omega

end Sound

end

/-! ## The document of a tree -/

section

variable (t : Tree)

/-- The labels of the document below a node name the slots below it. -/
theorem map_slot_preorder_subtreeTo (depth id level : Nat) :
    ((t.subtreeTo depth id).preorderFrom level).map (fun (_, label) => label.slot) =
      (t.below depth id).map some := by
  induction depth generalizing id level with
  | zero => rw [subtreeTo, Node.leaf, Node.preorderFrom, Node.preorderAll, below]; rfl
  | succ depth ih =>
    have hall (ids : List Nat) (level : Nat) :
        (Node.preorderAll level (t.subtreesTo depth ids)).map (fun (_, label) => label.slot) =
          (t.belowAll depth ids).map some := by
      induction ids with
      | nil => rw [subtreesTo, Node.preorderAll, belowAll]; rfl
      | cons id rest ihrest =>
        rw [subtreesTo, Node.preorderAll, belowAll, List.map_append, List.map_append, ih, ihrest]
    rw [subtreeTo, Node.preorderFrom, below, List.map_cons, List.map_cons, hall]

theorem length_preorder_document : t.document.preorder.length = (t.descendants root).length := by
  have h := congrArg List.length (t.map_slot_preorder_subtreeTo t.slots.size root 0)
  rwa [List.length_map, List.length_map] at h

theorem size_eq_length_filter : t.size = ((List.range t.slots.size).filter t.isAttached).length := by
  have hslots : t.slots.toList = (List.range t.slots.size).map fun i => (t.slot? i).getD default := by
    refine List.ext_getElem? fun i => ?_
    rw [Array.getElem?_toList, List.getElem?_map]
    by_cases hi : i < t.slots.size
    · rw [List.getElem?_range hi, Array.getElem?_eq_getElem hi]
      simp [slot?, hi]
    · rw [Array.getElem?_eq_none (Nat.le_of_not_lt hi), List.getElem?_eq_none (by simpa using hi)]
      rfl
  rw [size, hslots, List.countP_map, List.countP_eq_length_filter]
  refine congrArg List.length (List.filter_congr fun i hi => ?_)
  obtain ⟨s, hs⟩ := exists_slot? (List.mem_range.1 hi)
  simp [isAttached, hs]

end

section

variable {t : Tree}

theorem Sound.size_eq (h : t.Sound) : t.size = t.document.preorder.length := by
  rw [size_eq_length_filter, length_preorder_document]
  refine List.Perm.length_eq
    ((List.perm_ext_iff_of_nodup (List.nodup_range.filter _) (h.nodup_below _ _)).2 fun id => ?_)
  rw [List.mem_filter, List.mem_range]
  exact ⟨fun ⟨_, hid⟩ => h.mem_descendants_root hid, fun hid =>
    have hattached := h.isAttached_of_mem_below h.root_attached hid
    ⟨lt_of_isAttached hattached, hattached⟩⟩

theorem Sound.climbs (h : t.Sound) {id : Nat} (hid : t.isAttached id = true) :
    ∃ above, (id :: above).Nodup ∧ (id :: above).IsChain (fun c p => t.parent? c = some p) ∧
      (id :: above).getLast? = some root := by
  -- parents are smaller, so no node is met twice
  suffices hdown : ∃ above, (id :: above).Pairwise (· > ·) ∧
      (id :: above).IsChain (fun c p => t.parent? c = some p) ∧ (id :: above).getLast? = some root by
    obtain ⟨above, hpairs, hchain, hlast⟩ := hdown
    exact ⟨above, hpairs.imp fun hgt => Nat.ne_of_gt hgt, hchain, hlast⟩
  induction id using Nat.strongRecOn with
  | ind id ih =>
    by_cases hne : id = root
    · exact ⟨[], List.pairwise_singleton _ _, List.IsChain.singleton _, by rw [hne]; rfl⟩
    · obtain ⟨p, hparent, hp⟩ := h.parent hid hne
      obtain ⟨hlt, hattached, -⟩ := h.child hp
      obtain ⟨above, hpairs, hchain, hlast⟩ := ih p hlt hattached
      refine ⟨p :: above, List.pairwise_cons.2 ⟨fun q hq => ?_, hpairs⟩,
        .cons_cons hparent hchain, by rwa [List.getLast?_cons_cons]⟩
      obtain rfl | hq := List.mem_cons.1 hq
      · exact hlt
      · exact Nat.lt_trans ((List.pairwise_cons.1 hpairs).1 q hq) hlt

/-- The links of a sound tree agree. -/
theorem Sound.wellFormed (h : t.Sound) : t.WellFormed where
  root_attached := h.root_attached
  listed_once id hid hne := by
    obtain ⟨p, hparent, hp⟩ := h.parent hid hne
    refine ⟨p, hparent, (h.child hp).2.1, List.count_eq_one_of_mem (h.nodup p) hp, fun q hq => ?_⟩
    exact Option.some.inj ((h.child hq).2.2.2.symm.trans hparent)
  points_back p _ c hc := (h.child hc).2.2
  unlisted id hid p _ hp := Bool.false_ne_true (hid.2.symm.trans (h.child hp).2.2.1)
  climbs _ hid := h.climbs hid
  size_eq := h.size_eq

end

theorem sound_empty : empty.Sound where
  root_attached := rfl
  root_parent := rfl
  child {p c} hc := by
    cases p with
    | zero => exact absurd hc List.not_mem_nil
    | succ p => exact absurd hc List.not_mem_nil
  nodup p := by cases p <;> exact List.nodup_nil
  parent {id} hid hne := by
    cases id with
    | zero => exact absurd rfl hne
    | succ id => exact absurd hid Bool.false_ne_true

end Evomark.Tree
