import Mathlib.Logic.Relation
import Evomark.Proofs.Document.Arena
/-!
# Edits keep trees sound

An `Edit` is one of the ways to change a tree at a node. What an edit does to the links of a tree is said
slot by slot (`Added`, `slot?_remove`, `parent?_remove`, `isAttached_remove`). An edit at an attached
node keeps a tree sound (`Edit.sound_apply`), and what has been removed stays removed
(`Edit.removed_apply`).
-/

namespace Evomark.Tree

/-- A change of a tree at a node. -/
inductive Edit
  /-- A new last child. -/
  | push (parent : Nat) (label : Label)
  /-- A new node right behind another. -/
  | sibling (id : Nat) (label : Label)
  /-- The node and all below it taken away. -/
  | remove (id : Nat)
  /-- The children of a kind taken away. -/
  | removeChildren (id : Nat) (kind : Kind)
  /-- Other data on a node. -/
  | relabel (id : Nat) (f : Label → Label)

namespace Edit

/-- The node at which a tree is changed. -/
def target : Edit → Nat
  | push id _ | sibling id _ | remove id | removeChildren id _ | relabel id _ => id

/-- The tree after an edit. -/
def apply (t : Tree) : Edit → Tree
  | push parent label => (t.pushChild parent label).2
  | sibling id label => (t.addSibling id label).2
  | remove id => t.remove id
  | removeChildren id kind => t.removeChildren id kind
  | relabel id f => t.modify id fun s => { s with label := f s.label }

end Edit

/-! ## A new node -/

section

variable (t : Tree) (p : Nat) (label : Label) (q : Nat)

theorem size_pushChild : (t.pushChild p label).2.slots.size = t.slots.size + 1 :=
  (size_modify (t.alloc label p).2 p _).trans (size_alloc t label p)

theorem parent?_pushChild :
    (t.pushChild p label).2.parent? q = if q = t.slots.size then some p else t.parent? q := by
  have hslot (f : Slot → Slot) (hf : ∀ s, (f s).parent = s.parent) :
      ((t.alloc label p).2.modify p f).parent? q = (t.alloc label p).2.parent? q := by
    rw [parent?, parent?, slot?_modify]
    split
    · cases (t.alloc label p).2.slot? q <;> simp [hf]
    · rfl
  refine (hslot (fun s => { s with children := s.children ++ [t.slots.size] }) fun _ => rfl).trans ?_
  rw [parent?, slot?_alloc]
  split <;> rfl

variable {t p}

/-- A new node is allocated, and what its parent lists is changed. -/
theorem slot?_modify_alloc (hp : p < t.slots.size) (f : List Nat → List Nat) :
    ((t.alloc label p).2.modify p fun s => { s with children := f s.children }).slot? q =
      if q = t.slots.size then some { label, parent := some p }
      else if q = p then (t.slot? q).map fun s => { s with children := f s.children }
      else t.slot? q := by
  rw [slot?_modify, slot?_alloc]
  by_cases hq : q = t.slots.size
  · rw [if_neg (by omega), if_pos hq, if_pos hq]
  · rw [if_neg hq, if_neg hq]
    by_cases hqp : q = p
    · rw [if_pos hqp.symm, if_pos hqp]
    · rw [if_neg (Ne.symm hqp), if_neg hqp]

theorem slot?_pushChild (hp : p < t.slots.size) :
    (t.pushChild p label).2.slot? q =
      if q = t.slots.size then some { label, parent := some p }
      else if q = p then (t.slot? q).map fun s => { s with children := s.children ++ [t.slots.size] }
      else t.slot? q :=
  slot?_modify_alloc label q hp (· ++ [t.slots.size])

theorem slot?_addSibling {id : Nat} (hid : t.parent? id = some p) (hp : p < t.slots.size) :
    (t.addSibling id label).2.slot? q =
      if q = t.slots.size then some { label, parent := some p }
      else if q = p then
        (t.slot? q).map fun s => { s with children := insertBehind id t.slots.size s.children }
      else t.slot? q := by
  rw [addSibling, hid]
  exact slot?_modify_alloc label q hp (insertBehind id t.slots.size)

theorem size_addSibling {id : Nat} (hid : t.parent? id = some p) :
    (t.addSibling id label).2.slots.size = t.slots.size + 1 := by
  rw [addSibling, hid]
  exact (size_modify (t.alloc label p).2 p _).trans (size_alloc t label p)

end

/-- The tree `t'` is `t` with a new node below `p`. -/
structure Added (t t' : Tree) (p : Nat) : Prop where
  size_eq : t'.slots.size = t.slots.size + 1
  isAttached_iff : ∀ q, t'.isAttached q = true ↔ q = t.slots.size ∨ t.isAttached q = true
  parent?_eq : ∀ q, t'.parent? q = if q = t.slots.size then some p else t.parent? q
  children_of_ne : ∀ q, q ≠ p → t'.children q = t.children q
  perm_children : (t'.children p).Perm (t.slots.size :: t.children p)

theorem perm_insertBehind (id new : Nat) (ids : List Nat) : (insertBehind id new ids).Perm (new :: ids) := by
  induction ids with
  | nil => exact List.Perm.refl _
  | cons c rest ih =>
    rw [insertBehind]
    split
    · exact List.Perm.swap _ _ _
    · exact (ih.cons c).trans (List.Perm.swap _ _ _)

section

variable {t t' : Tree} {p : Nat}

/-- A new node is allocated and put among the children of its parent. -/
theorem added_alloc (hp : p < t.slots.size) (label : Label) {f : List Nat → List Nat}
    (hf : ∀ ids, (f ids).Perm (t.slots.size :: ids)) :
    t.Added ((t.alloc label p).2.modify p fun s => { s with children := f s.children }) p := by
  have hslot (q : Nat) := slot?_modify_alloc label q hp f
  obtain ⟨s, hs⟩ := exists_slot? hp
  have hfresh : t.slot? t.slots.size = none := slot?_eq_none t _ (Nat.le_refl _)
  have hne : p ≠ t.slots.size := Nat.ne_of_lt hp
  refine ⟨by rw [size_modify, size_alloc], fun q => ?_, fun q => ?_, fun q hq => ?_, ?_⟩
  · simp only [isAttached, hslot]
    by_cases hq : q = t.slots.size
    · simp [hq]
    · by_cases hqp : q = p <;> simp [hq, hqp, hne, Function.comp_def]
  · simp only [parent?, hslot]
    by_cases hq : q = t.slots.size
    · simp [hq]
    · by_cases hqp : q = p
      · subst hqp
        simp [hne, hs]
      · simp [hq, hqp]
  · simp only [children, hslot, if_neg hq]
    by_cases hq : q = t.slots.size
    · simp [hq, hfresh]
    · simp [hq]
  · simp only [children, hslot, if_neg hne, hs]
    exact hf s.children

theorem added_pushChild (hp : p < t.slots.size) (label : Label) : t.Added (t.pushChild p label).2 p :=
  added_alloc hp label fun _ => List.perm_append_singleton _ _

theorem added_addSibling {id : Nat} (hid : id < t.slots.size)
    (hparent : ∀ p, t.parent? id = some p → p < t.slots.size) (label : Label) :
    t.Added (t.addSibling id label).2 ((t.parent? id).getD id) := by
  rw [addSibling]
  cases hp : t.parent? id with
  | none => exact added_pushChild hid label
  | some p => exact added_alloc (hparent p hp) label fun ids => perm_insertBehind id _ ids

namespace Added

theorem removed (h : t.Added t' p) {id : Nat} (hid : t.Removed id) : t'.Removed id := by
  refine ⟨by have := hid.1; have := h.size_eq; omega, Bool.eq_false_iff.2 fun hattached => ?_⟩
  obtain heq | hattached := (h.isAttached_iff id).1 hattached
  · exact Nat.ne_of_lt hid.1 heq
  · exact Bool.false_ne_true (hid.2.symm.trans hattached)

theorem mem_children_iff (h : t.Added t' p) (hp : p < t.slots.size) {q c : Nat} :
    c ∈ t'.children q ↔ (q = p ∧ c = t.slots.size) ∨ c ∈ t.children q := by
  by_cases hq : q = p
  · subst hq
    rw [h.perm_children.mem_iff, List.mem_cons]
    simp
  · rw [h.children_of_ne q hq]
    simp [hq]

theorem sound (h : t.Added t' p) (ht : t.Sound) (hp : t.isAttached p = true) : t'.Sound := by
  have hlt := lt_of_isAttached hp
  have hmem {q c : Nat} := h.mem_children_iff hlt (q := q) (c := c)
  have hroot : root ≠ t.slots.size := Nat.ne_of_lt (lt_of_isAttached ht.root_attached)
  refine ⟨(h.isAttached_iff _).2 (.inr ht.root_attached), by rw [h.parent?_eq, if_neg hroot, ht.root_parent],
    fun {q c} hc => ?_, fun q => ?_, fun {id} hid hne => ?_⟩
  · rw [h.isAttached_iff, h.isAttached_iff, h.parent?_eq]
    obtain ⟨rfl, rfl⟩ | hc := hmem.1 hc
    · exact ⟨hlt, .inr hp, .inl rfl, if_pos rfl⟩
    · obtain ⟨hqc, hq, hattached, hparent⟩ := ht.child hc
      have hold : c ≠ t.slots.size := Nat.ne_of_lt (lt_of_isAttached hattached)
      exact ⟨hqc, .inr hq, .inr hattached, by rw [if_neg hold, hparent]⟩
  · by_cases hq : q = p
    · rw [hq, h.perm_children.nodup_iff, List.nodup_cons]
      exact ⟨fun hc => Nat.lt_irrefl _ (lt_of_isAttached (ht.child hc).2.2.1), ht.nodup p⟩
    · rw [h.children_of_ne q hq]
      exact ht.nodup q
  · rw [h.parent?_eq]
    obtain rfl | hid := (h.isAttached_iff id).1 hid
    · exact ⟨p, if_pos rfl, hmem.2 (.inl ⟨rfl, rfl⟩)⟩
    · obtain ⟨q, hparent, hq⟩ := ht.parent hid hne
      exact ⟨q, by rw [if_neg (Nat.ne_of_lt (lt_of_isAttached hid)), hparent], hmem.2 (.inr hq)⟩

end Added

end

/-! ## Nodes taken away -/

section

variable (t : Tree) (id q : Nat)

theorem slot?_foldl_modify {f : Slot → Slot} (hf : f ∘ f = f) (ids : List Nat) :
    (ids.foldl (fun t id => t.modify id f) t).slot? q =
      if q ∈ ids then (t.slot? q).map f else t.slot? q := by
  induction ids generalizing t with
  | nil => rfl
  | cons i rest ih =>
    rw [List.foldl_cons, ih, slot?_modify]
    by_cases hi : i = q
    · subst hi
      by_cases hrest : i ∈ rest <;> simp [hrest, hf]
    · simp [hi, Ne.symm hi]

theorem size_foldl_modify (f : Slot → Slot) (ids : List Nat) :
    (ids.foldl (fun t id => t.modify id f) t).slots.size = t.slots.size := by
  induction ids generalizing t with
  | nil => rfl
  | cons i rest ih => exact (ih _).trans (size_modify t i f)

theorem size_remove : (t.remove id).slots.size = t.slots.size := by
  rw [remove]
  split
  · rfl
  · rw [bury, size_foldl_modify]
    split
    · rfl
    · rw [size_modify, size_modify]

variable {id}

/-- The slots of a tree without a node. -/
theorem slot?_remove (hne : id ≠ root) :
    (t.remove id).slot? q = (t.slot? q).map fun s =>
      { label := s.label
        children :=
          if q ∈ t.descendants id then []
          else if t.parent? id = some q then s.children.filter (· != id) else s.children
        parent := if id = q then none else s.parent
        removed := s.removed || decide (q ∈ t.descendants id) } := by
  rw [remove, if_neg hne, bury, slot?_foldl_modify _ _ (f := Slot.bury) rfl]
  generalize t.descendants id = below
  cases hs : t.slot? q with
  | none => cases t.parent? id <;> simp [slot?_modify, hs]
  | some s =>
    obtain ⟨label, ids, parent, removed⟩ := s
    cases hp : t.parent? id with
    | none =>
      have hparent (hq : id = q) : parent = none := by
        rw [hq, parent?, hs] at hp
        exact hp
      by_cases hd : q ∈ below <;> by_cases hq : id = q
      · simp [hs, hd, hq, hparent hq, Slot.bury]
      · simp [hs, hd, hq, Slot.bury]
      · simp [hs, hd, hq, hparent hq]
      · simp [hs, hd, hq]
    | some p =>
      by_cases hd : q ∈ below <;> by_cases hq : id = q <;> by_cases hqp : p = q <;>
        simp [slot?_modify, hs, hd, hq, hqp, Slot.bury]

theorem isAttached_remove (hne : id ≠ root) :
    (t.remove id).isAttached q = true ↔ t.isAttached q = true ∧ q ∉ t.descendants id := by
  rw [isAttached, isAttached, slot?_remove t q hne]
  cases t.slot? q <;> simp

theorem parent?_remove (hne : id ≠ root) :
    (t.remove id).parent? q = if id = q then none else t.parent? q := by
  rw [parent?, parent?, slot?_remove t q hne]
  cases t.slot? q <;> simp

theorem mem_children_remove (hne : id ≠ root) {c : Nat} :
    c ∈ (t.remove id).children q ↔
      c ∈ t.children q ∧ q ∉ t.descendants id ∧ (t.parent? id = some q → c ≠ id) := by
  rw [children, children, slot?_remove t q hne]
  cases t.slot? q with
  | none => simp
  | some s =>
    by_cases hd : q ∈ t.descendants id
    · simp [hd]
    · by_cases hp : t.parent? id = some q <;> simp [hd, hp]

theorem sublist_children_remove (hne : id ≠ root) : ((t.remove id).children q).Sublist (t.children q) := by
  rw [children, children, slot?_remove t q hne]
  cases t.slot? q with
  | none => exact List.Sublist.refl _
  | some s =>
    simp only [Option.map_some, Option.getD_some]
    split
    · exact List.nil_sublist _
    · split
      · exact List.filter_sublist
      · exact List.Sublist.refl _

end

section

variable {t : Tree}

/-- A node taken away takes what is below it with it; no link is left to any of them. -/
theorem Sound.remove (ht : t.Sound) (id : Nat) : (t.remove id).Sound := by
  by_cases hne : id = root
  · rw [Tree.remove, if_pos hne]
    exact ht
  have hkept {q : Nat} := (isAttached_remove t q hne)
  have hmem {q c : Nat} := mem_children_remove t q hne (c := c)
  have hself : id ∈ t.descendants id := mem_below_self _ _
  -- what is below `id` and is not `id` is listed below `id`
  have hbelow {q c : Nat} (hc : c ∈ t.children q) (hq : q ∉ t.descendants id)
      (hcut : t.parent? id = some q → c ≠ id) : c ∉ t.descendants id := fun hd => by
    have hparent := (ht.child hc).2.2.2
    by_cases heq : c = id
    · exact hcut (heq ▸ hparent) heq
    · obtain ⟨p, hp, hpd⟩ := parent_mem_below hd heq
      obtain rfl : p = q := Option.some.inj ((ht.child hp).2.2.2.symm.trans hparent)
      exact hq hpd
  refine ⟨hkept.2 ⟨ht.root_attached, fun hd => ?_⟩, ?_, fun {q c} hc => ?_, fun q => ?_,
    fun {c} hc hroot => ?_⟩
  · exact hne (Nat.le_zero.1 (ht.le_of_mem_below hd))
  · rw [parent?_remove t root hne, if_neg hne, ht.root_parent]
  · obtain ⟨hc, hq, hcut⟩ := hmem.1 hc
    obtain ⟨hlt, hattached, hcattached, hparent⟩ := ht.child hc
    have hcd := hbelow hc hq hcut
    refine ⟨hlt, hkept.2 ⟨hattached, hq⟩, hkept.2 ⟨hcattached, hcd⟩, ?_⟩
    rw [parent?_remove t c hne, if_neg fun heq => hcd (by rwa [← heq]), hparent]
  · exact (sublist_children_remove t q hne).nodup (ht.nodup q)
  · obtain ⟨hattached, hcd⟩ := hkept.1 hc
    obtain ⟨p, hparent, hp⟩ := ht.parent hattached hroot
    have hcid : c ≠ id := fun heq => hcd (heq ▸ hself)
    refine ⟨p, by rw [parent?_remove t c hne, if_neg hcid.symm, hparent], hmem.2 ⟨hp, ?_, fun _ => hcid⟩⟩
    exact fun hpd => hcd (ht.child_mem_descendants hpd hp)

theorem Removed.remove {q : Nat} (hq : t.Removed q) (id : Nat) : (t.remove id).Removed q := by
  by_cases hne : id = root
  · rw [Tree.remove, if_pos hne]
    exact hq
  · refine ⟨(size_remove t id).symm ▸ hq.1, Bool.eq_false_iff.2 fun hattached => ?_⟩
    exact Bool.false_ne_true (hq.2.symm.trans ((isAttached_remove t q hne).1 hattached).1)

/-- What is taken away has been removed. -/
theorem removed_remove {id : Nat} (hne : id ≠ root) (hid : id < t.slots.size) : (t.remove id).Removed id := by
  refine ⟨(size_remove t id).symm ▸ hid, Bool.eq_false_iff.2 fun hattached => ?_⟩
  exact ((isAttached_remove t id hne).1 hattached).2 (mem_below_self _ _)

/-- Nodes taken away one after the other. -/
theorem foldl_remove {motive : Tree → Prop} (h : ∀ t id, motive t → motive (t.remove id)) (ids : List Nat)
    (ht : motive t) : motive (ids.foldl Tree.remove t) := by
  induction ids generalizing t with
  | nil => exact ht
  | cons id rest ih => exact ih (h t id ht)

theorem Sound.removeChildren (ht : t.Sound) (id : Nat) (kind : Kind) : (t.removeChildren id kind).Sound :=
  foldl_remove (motive := Sound) (fun _ id ht => ht.remove id) _ ht

theorem Removed.removeChildren {q : Nat} (hq : t.Removed q) (id : Nat) (kind : Kind) :
    (t.removeChildren id kind).Removed q :=
  foldl_remove (motive := (Removed · q)) (fun _ id hq => hq.remove id) _ hq

/-! ## Other data on a node -/

/-- A change that leaves the links of a slot. -/
theorem modify_label (id : Nat) (f : Label → Label) (q : Nat) :
    let t' := t.modify id fun s => { s with label := f s.label }
    t'.isAttached q = t.isAttached q ∧ t'.parent? q = t.parent? q ∧ t'.children q = t.children q := by
  intro t'
  simp only [t', isAttached, parent?, children, slot?_modify]
  split <;> cases t.slot? q <;> exact ⟨rfl, rfl, rfl⟩

theorem Sound.modify_label (ht : t.Sound) (id : Nat) (f : Label → Label) :
    (t.modify id fun s => { s with label := f s.label }).Sound := by
  have hsame := t.modify_label id f
  refine ⟨(hsame root).1 ▸ ht.root_attached, (hsame root).2.1 ▸ ht.root_parent, fun {p c} hc => ?_,
    fun p => (hsame p).2.2 ▸ ht.nodup p, fun {q} hq hne => ?_⟩
  · rw [(hsame p).2.2] at hc
    rw [(hsame p).1, (hsame c).1, (hsame c).2.1]
    exact ht.child hc
  · rw [(hsame q).1] at hq
    obtain ⟨p, hparent, hp⟩ := ht.parent hq hne
    exact ⟨p, (hsame q).2.1 ▸ hparent, (hsame p).2.2 ▸ hp⟩

theorem Removed.modify_label {q : Nat} (hq : t.Removed q) (id : Nat) (f : Label → Label) :
    (t.modify id fun s => { s with label := f s.label }).Removed q :=
  ⟨(size_modify t id _).symm ▸ hq.1, (t.modify_label id f q).1 ▸ hq.2⟩

/-! ## Every edit -/

theorem Sound.added_addSibling (ht : t.Sound) {id : Nat} (hid : t.isAttached id = true) (label : Label) :
    ∃ p, t.isAttached p = true ∧ t.Added (t.addSibling id label).2 p := by
  have hadded := Tree.added_addSibling (lt_of_isAttached hid)
    (fun p hp => lt_of_isAttached (ht.isAttached_parent hid hp)) label
  refine ⟨_, ?_, hadded⟩
  cases hp : t.parent? id with
  | none => exact hid
  | some p => exact ht.isAttached_parent hid hp

theorem Edit.sound_apply (e : Edit) (ht : t.Sound) (he : t.isAttached e.target = true) :
    (e.apply t).Sound := by
  cases e with
  | push p label => exact (added_pushChild (lt_of_isAttached he) label).sound ht he
  | sibling id label =>
    obtain ⟨p, hp, hadded⟩ := ht.added_addSibling he label
    exact hadded.sound ht hp
  | remove id => exact ht.remove id
  | removeChildren id kind => exact ht.removeChildren id kind
  | relabel id f => exact ht.modify_label id f

theorem Edit.removed_apply (e : Edit) (ht : t.Sound) (he : t.isAttached e.target = true) {id : Nat}
    (hid : t.Removed id) : (e.apply t).Removed id := by
  cases e with
  | push p label => exact (added_pushChild (lt_of_isAttached he) label).removed hid
  | sibling id label =>
    obtain ⟨p, -, hadded⟩ := ht.added_addSibling he label
    exact hadded.removed hid
  | remove id => exact hid.remove id
  | removeChildren id kind => exact hid.removeChildren id kind
  | relabel id f => exact hid.modify_label id f

/-- Edits one after the other, each at a node that is attached when its turn comes. -/
def Edits : Tree → Tree → Prop :=
  Relation.ReflTransGen fun t t' => ∃ e : Edit, t.isAttached e.target = true ∧ t' = e.apply t

theorem Edits.edit (e : Edit) (he : t.isAttached e.target = true) : t.Edits (e.apply t) :=
  .single ⟨e, he, rfl⟩

theorem Edits.sound {t' : Tree} (h : t.Edits t') (ht : t.Sound) : t'.Sound := by
  induction h with
  | refl => exact ht
  | tail _ hedit ih =>
    obtain ⟨e, he, rfl⟩ := hedit
    exact e.sound_apply ih he

theorem Edits.removed {t' : Tree} (h : t.Edits t') (ht : t.Sound) {id : Nat} (hid : t.Removed id) :
    t'.Removed id := by
  induction h with
  | refl => exact hid
  | tail hedits hedit ih =>
    obtain ⟨e, he, rfl⟩ := hedit
    exact e.removed_apply (Edits.sound hedits ht) he ih

end

end Evomark.Tree
