import Evomark.Proofs.Document.Edits
/-!
# Trees that grow

`Tree.Holds` says that a document stands at a slot of a tree. When a tree grows (`Tree.Extends`), the
slots there are keep all they have and only get more children, which are documents in new slots. Growing
further below the same nodes puts further documents behind the others (`Extends.trans`), and growing below
a node that has just been made fills that node (`Extends.under`).
-/

namespace Evomark

namespace Node

mutual

/-- The slots that the labels of a node and of those below it name. -/
def slots : Node → List Nat
  | ⟨label, children⟩ => label.slot.toList ++ slotsAll children

/-- The slots that nodes and those below them name. -/
def slotsAll : List Node → List Nat
  | [] => []
  | n :: rest => n.slots ++ slotsAll rest

end

mutual

/-- A document that names no slots. -/
def unslotted : Node → Node
  | ⟨label, children⟩ => ⟨{ label with slot := none }, unslottedAll children⟩

/-- `unslotted` of each node of a list. -/
def unslottedAll : List Node → List Node
  | [] => []
  | n :: rest => unslotted n :: unslottedAll rest

end

mutual

theorem unslotted_of_slots : ∀ {n : Node}, n.slots = [] → n.unslotted = n
  | ⟨label, children⟩, h => by
    rw [slots, List.append_eq_nil_iff] at h
    have hlabel : label.slot = none := by
      cases hslot : label.slot with
      | none => rfl
      | some id =>
        rw [hslot] at h
        cases h.1
    rw [unslotted, unslottedAll_of_slots h.2, ← hlabel]

theorem unslottedAll_of_slots : ∀ {ns : List Node}, slotsAll ns = [] → unslottedAll ns = ns
  | [], _ => by rw [unslottedAll]
  | n :: rest, h => by
    rw [slotsAll, List.append_eq_nil_iff] at h
    rw [unslottedAll, unslotted_of_slots h.1, unslottedAll_of_slots h.2]

end

end Node

namespace Tree

mutual

/-- The node `n` stands at `id`, with all below it in slots from `b` on. -/
def Holds (t : Tree) (b id : Nat) : Node → Prop
  | ⟨label, children⟩ =>
    b ≤ id ∧ ∃ s, t.slot? id = some s ∧ s.label = label ∧ HoldsAll t b s.children children

/-- The nodes of a list stand at the numbers of another. -/
def HoldsAll (t : Tree) (b : Nat) : List Nat → List Node → Prop
  | ids, [] => ids = []
  | ids, n :: rest => ∃ id more, ids = id :: more ∧ Holds t b id n ∧ HoldsAll t b more rest

end

/-- The tree `t'` is `t` with documents in new slots, `added q` behind the children of `q`. -/
structure Extends (t t' : Tree) (added : Nat → List Node) : Prop where
  size_le : t.slots.size ≤ t'.slots.size
  slot? : ∀ {q s}, t.slot? q = some s → ∃ ids,
    t'.slot? q = some { s with children := s.children ++ ids } ∧ t'.HoldsAll t.slots.size ids (added q)

/-! ## Documents stay -/

section

variable {t t' : Tree} {b b' : Nat}

theorem holds_iff {id : Nat} {n : Node} : t.Holds b id n ↔
    b ≤ id ∧ ∃ s, t.slot? id = some s ∧ s.label = n.label ∧ t.HoldsAll b s.children n.children := by
  cases n
  rw [Holds]

mutual

/-- A document stays where its slots stay. -/
theorem Holds.frame (hb : b' ≤ b) (hsame : ∀ {q s}, b ≤ q → t.slot? q = some s → t'.slot? q = some s)
    {id : Nat} : ∀ {n : Node}, t.Holds b id n → t'.Holds b' id n
  | ⟨label, children⟩, h => by
    rw [Holds] at h ⊢
    obtain ⟨hid, s, hs, hlabel, hchildren⟩ := h
    exact ⟨Nat.le_trans hb hid, s, hsame hid hs, hlabel, HoldsAll.frame hb hsame hchildren⟩

theorem HoldsAll.frame (hb : b' ≤ b) (hsame : ∀ {q s}, b ≤ q → t.slot? q = some s → t'.slot? q = some s)
    {ids : List Nat} : ∀ {ns : List Node}, t.HoldsAll b ids ns → t'.HoldsAll b' ids ns
  | [], h => by
    rw [HoldsAll] at h ⊢
    exact h
  | n :: rest, h => by
    rw [HoldsAll] at h ⊢
    obtain ⟨id, more, hids, hn, hrest⟩ := h
    exact ⟨id, more, hids, Holds.frame hb hsame hn, HoldsAll.frame hb hsame hrest⟩

end

theorem HoldsAll.append {ids ids' : List Nat} {ns ns' : List Node} (h : t.HoldsAll b ids ns)
    (h' : t.HoldsAll b ids' ns') : t.HoldsAll b (ids ++ ids') (ns ++ ns') := by
  induction ns generalizing ids with
  | nil =>
    rw [HoldsAll] at h
    rwa [h]
  | cons n rest ih =>
    rw [HoldsAll] at h
    obtain ⟨id, more, rfl, hn, hrest⟩ := h
    rw [List.cons_append, List.cons_append, HoldsAll]
    exact ⟨id, more ++ ids', rfl, hn, ih hrest⟩

theorem HoldsAll.map_label {ids : List Nat} {ns : List Node} (h : t.HoldsAll b ids ns) :
    ids.map t.label = ns.map (·.label) := by
  induction ns generalizing ids with
  | nil =>
    rw [HoldsAll] at h
    rw [h]
    rfl
  | cons n rest ih =>
    rw [HoldsAll] at h
    obtain ⟨id, more, rfl, hn, hrest⟩ := h
    obtain ⟨-, s, hs, hlabel, -⟩ := holds_iff.1 hn
    rw [List.map_cons, List.map_cons, ih hrest, label, hs, ← hlabel]
    rfl

end

/-! ## Ways to grow -/

section

variable {t t' t₂ : Tree} {a a' : Nat → List Node} {p : Nat}

theorem slot?_lt {q : Nat} {s : Slot} (h : t.slot? q = some s) : q < t.slots.size := by
  by_contra hq
  rw [slot?_eq_none t q (Nat.le_of_not_lt hq)] at h
  cases h

namespace Extends

theorem refl (t : Tree) : t.Extends t fun _ => [] :=
  ⟨Nat.le_refl _, fun {q s} hs => ⟨[], by rw [List.append_nil]; exact hs, by rw [HoldsAll]⟩⟩

/-- What is added counts at the slots there are only. -/
theorem congr (h : t.Extends t' a) (heq : ∀ q, q < t.slots.size → a q = a' q) : t.Extends t' a' :=
  ⟨h.size_le, fun hs => heq _ (slot?_lt hs) ▸ h.slot? hs⟩

/-- More is added behind. Below what has been added first nothing more is put. -/
theorem trans (h : t.Extends t' a) (h' : t'.Extends t₂ a') (hold : ∀ q, t.slots.size ≤ q → a' q = []) :
    t.Extends t₂ fun q => a q ++ a' q := by
  refine ⟨Nat.le_trans h.size_le h'.size_le, fun {q s} hs => ?_⟩
  obtain ⟨ids, hids, hadded⟩ := h.slot? hs
  obtain ⟨ids', hids', hadded'⟩ := h'.slot? hids
  refine ⟨ids ++ ids', by rw [hids', List.append_assoc], HoldsAll.append ?_ ?_⟩
  · refine hadded.frame (Nat.le_refl _) fun {q s} hq hs => ?_
    obtain ⟨ids, hids, hnone⟩ := h'.slot? hs
    rw [hold q hq, HoldsAll] at hnone
    rw [hids, hnone, List.append_nil]
  · exact hadded'.frame h.size_le fun _ hs => hs

theorem isAttached (h : t.Extends t' a) {q : Nat} (hq : t.isAttached q = true) : t'.isAttached q = true := by
  obtain ⟨s, hs⟩ := exists_slot? (lt_of_isAttached hq)
  obtain ⟨ids, hids, -⟩ := h.slot? hs
  rw [Tree.isAttached, hs] at hq
  rw [Tree.isAttached, hids]
  exact hq

end Extends

/-- What is put below a node that has just been made is part of it. -/
theorem Extends.under {label : Label} (hp : p < t.slots.size) (h : (t.pushChild p label).2.Extends t' a) :
    t.Extends t' fun q => (if q = p then [⟨label, a t.slots.size⟩] else []) ++ a q := by
  have hsize := size_pushChild t p label
  have hslot (q : Nat) := slot?_pushChild label q hp
  have hle : t.slots.size ≤ (t.pushChild p label).2.slots.size := by omega
  refine ⟨Nat.le_trans hle h.size_le, fun {q s} hs => ?_⟩
  have hq : q ≠ t.slots.size := Nat.ne_of_lt (slot?_lt hs)
  have hsq := hslot q
  rw [if_neg hq, hs] at hsq
  by_cases hqp : q = p
  · rw [if_pos hqp] at hsq
    obtain ⟨ids, hids, hadded⟩ := h.slot? hsq
    obtain ⟨inner, hinner, hbelow⟩ := h.slot? ((hslot _).trans (if_pos rfl))
    refine ⟨t.slots.size :: ids, by rw [hids, List.append_assoc]; rfl, ?_⟩
    rw [if_pos hqp, List.singleton_append, HoldsAll]
    refine ⟨_, ids, rfl, ?_, hadded.frame hle fun _ hs => hs⟩
    rw [Holds]
    exact ⟨Nat.le_refl _, _, hinner, rfl, hbelow.frame hle fun _ hs => hs⟩
  · rw [if_neg hqp] at hsq
    obtain ⟨ids, hids, hadded⟩ := h.slot? hsq
    exact ⟨ids, hids, by rw [if_neg hqp]; exact hadded.frame hle fun _ hs => hs⟩

/-- A node that is taken back leaves nothing. -/
theorem extends_remove_pushChild (ht : t.Sound) (hp : p < t.slots.size) (label : Label) :
    t.Extends ((t.pushChild p label).2.remove t.slots.size) fun _ => [] := by
  have hslot (q : Nat) := slot?_pushChild label q hp
  have hne : t.slots.size ≠ root := by
    have := lt_of_isAttached ht.root_attached
    simp only [root] at this ⊢
    omega
  have hleaf : (t.pushChild p label).2.children t.slots.size = [] := by
    rw [children, hslot, if_pos rfl]
    rfl
  have hbelow (q : Nat) : q ∈ (t.pushChild p label).2.descendants t.slots.size ↔ q = t.slots.size := by
    rw [descendants, size_pushChild, mem_below_succ, hleaf]
    simp
  have hparent : (t.pushChild p label).2.parent? t.slots.size = some p := by
    rw [parent?_pushChild, if_pos rfl]
  refine ⟨by rw [size_remove, size_pushChild]; exact Nat.le_succ _, fun {q s} hs => ?_⟩
  refine ⟨[], ?_, by rw [HoldsAll]⟩
  have hq : q ≠ t.slots.size := Nat.ne_of_lt (slot?_lt hs)
  rw [slot?_remove _ q hne, hslot, if_neg hq, hs, hparent]
  simp only [hbelow, hq, hq.symm, if_false, decide_false, Bool.or_false, List.append_nil, Option.some.injEq]
  by_cases hqp : q = p
  · have hids : ∀ c ∈ s.children, c ≠ t.slots.size := fun c hc => by
      have hmem : c ∈ t.children q := by rw [children, hs]; exact hc
      exact Nat.ne_of_lt (lt_of_isAttached (ht.child hmem).2.2.1)
    have hcut : (s.children ++ [t.slots.size]).filter (· != t.slots.size) = s.children := by
      rw [List.filter_append, List.filter_eq_self.2 fun c hc => by simpa using hids c hc]
      simp
    simp only [if_pos hqp, Option.map_some, if_pos hqp.symm, hcut]
  · simp only [if_neg hqp, Option.map_some, if_neg (Ne.symm hqp)]

theorem ext_slot? (h : ∀ q, t.slot? q = t'.slot? q) : t = t' :=
  congrArg Tree.mk (Array.ext_getElem? h)

/-- Other data on a node that has just been made. -/
theorem relabel_pushChild (hp : p < t.slots.size) (label : Label) (f : Label → Label) :
    ((t.pushChild p label).2.modify t.slots.size fun s => { s with label := f s.label }) =
      (t.pushChild p (f label)).2 := by
  refine ext_slot? fun q => ?_
  rw [slot?_modify, slot?_pushChild _ _ hp, slot?_pushChild _ _ hp]
  by_cases hq : q = t.slots.size
  · rw [if_pos hq.symm, if_pos hq, if_pos hq]
    rfl
  · rw [if_neg (Ne.symm hq), if_neg hq, if_neg hq]

end

end Tree

end Evomark
