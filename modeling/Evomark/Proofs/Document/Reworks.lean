import Mathlib.Data.List.Forall2
import Evomark.Proofs.Document.Extended
/-!
# What edits leave alone

`Tree.Shows` says that a node stands at a slot of a tree, with all below it; it goes on standing there as
long as nothing below the slot is changed (`Tree.SameBelow`). `Tree.Reworks` says that a tree has been
edited at attached nodes and that only some of its slots have been touched, and `Tree.Pruned` that some
children of a node have been taken away. Each operation of a tree is told by what it touches and by what
it makes of the slot at which the tree is edited.
-/

namespace Evomark.Tree

mutual

/-- The node `n` stands at `id` with all below it, whatever slots the labels name. -/
def Shows (t : Tree) (id : Nat) : Node → Prop
  | ⟨label, children⟩ =>
    { label with slot := none } = { t.label id with slot := none } ∧ ShowsAll t (t.children id) children

/-- The nodes of a list stand at the numbers of another. -/
def ShowsAll (t : Tree) : List Nat → List Node → Prop
  | ids, [] => ids = []
  | ids, n :: rest => ∃ id more, ids = id :: more ∧ Shows t id n ∧ ShowsAll t more rest

end

/-- What is below `id` in `t`, itself included, is the same in `t'`. -/
def SameBelow (t t' : Tree) (id : Nat) : Prop := ∀ q ∈ t.descendants id, t'.slot? q = t.slot? q

/-- By edits at attached nodes `t` has become `t'`, and only slots that are `touched` have changed. -/
structure Reworks (t t' : Tree) (touched : Nat → Prop) : Prop where
  edits : t.Edits t'
  size_le : t.slots.size ≤ t'.slots.size
  slot?_eq : ∀ {q}, q < t.slots.size → ¬ touched q → t'.slot? q = t.slot? q

/-- Of the slot `p` only the list of children has changed, which is `ids` now. -/
def Relists (t t' : Tree) (p : Nat) (ids : List Nat) : Prop :=
  t'.slot? p = (t.slot? p).map fun s => { s with children := ids }

/-- The slot is that of `p`, or below one of the nodes `ids`. -/
def Under (t : Tree) (p : Nat) (ids : List Nat) (q : Nat) : Prop := q = p ∨ ∃ c ∈ ids, q ∈ t.descendants c

/-- The tree `t'` is `t` without some children of `p`. -/
structure Pruned (t t' : Tree) (p : Nat) (gone : List Nat) : Prop where
  listed : ∀ c ∈ gone, c ∈ t.children p
  reworks : t.Reworks t' (t.Under p gone)
  relists : t.Relists t' p ((t.children p).filter (· ∉ gone))
  removed : ∀ c ∈ gone, ∀ q ∈ t.descendants c, t'.Removed q

/-! ## What is below a node -/

section

variable {t t' t₂ : Tree} {id p q : Nat}

theorem children_of_slot? (h : t'.slot? q = t.slot? q) : t'.children q = t.children q := by
  rw [children, children, h]

theorem label_of_slot? (h : t'.slot? q = t.slot? q) : t'.label q = t.label q := by
  rw [label, label, h]

/-- What holds of a node and passes on to children holds of all below it. -/
theorem of_mem_below {P : Nat → Prop} (hP : ∀ {q}, P q → ∀ c ∈ t.children q, P c) {depth : Nat} (hid : P id)
    (hq : q ∈ t.below depth id) : P q := by
  induction depth generalizing id with
  | zero => rwa [mem_below_zero.1 hq]
  | succ depth ih =>
    obtain rfl | ⟨c, hc, hq⟩ := mem_below_succ.1 hq
    · exact hid
    · exact ih (hP hid c hc) hq

/-- What is below a child is below the node. -/
theorem Sound.mem_descendants_of_child (ht : t.Sound) {c : Nat} (hc : c ∈ t.children id)
    (hq : q ∈ t.descendants c) : q ∈ t.descendants id :=
  of_mem_below (fun hp _ hc => ht.child_mem_descendants hp hc)
    (ht.child_mem_descendants (mem_below_self _ _) hc) hq

namespace SameBelow

theorem refl (t : Tree) (id : Nat) : t.SameBelow t id := fun _ _ => rfl

theorem self (h : t.SameBelow t' id) : t'.slot? id = t.slot? id := h id (mem_below_self _ _)

theorem child (ht : t.Sound) (h : t.SameBelow t' id) {c : Nat} (hc : c ∈ t.children id) : t.SameBelow t' c :=
  fun _ hq => h _ (ht.mem_descendants_of_child hc hq)

/-- The same numbers are below a node if what is below it is the same. -/
theorem mem_iff (ht : t.Sound) (ht' : t'.Sound) (h : t.SameBelow t' id) :
    q ∈ t'.descendants id ↔ q ∈ t.descendants id := by
  constructor
  · refine of_mem_below (P := (· ∈ t.descendants id)) (fun {p} hp c hc => ?_) (mem_below_self _ _)
    exact ht.child_mem_descendants hp (children_of_slot? (h p hp) ▸ hc)
  · intro hq
    induction q using Nat.strongRecOn with
    | ind q ih =>
      by_cases hne : q = id
      · exact hne ▸ mem_below_self _ _
      · obtain ⟨p, hp, hpid⟩ := parent_mem_below hq hne
        refine ht'.child_mem_descendants (ih p (ht.child hp).1 hpid) ?_
        rwa [children_of_slot? (h p hpid)]

theorem trans (ht : t.Sound) (ht' : t'.Sound) (h : t.SameBelow t' id) (h' : t'.SameBelow t₂ id) :
    t.SameBelow t₂ id := fun q hq => (h' q ((h.mem_iff ht ht').2 hq)).trans (h q hq)

end SameBelow

/-! ## What stands at a node -/

theorem shows_iff {n : Node} : t.Shows id n ↔
    { n.label with slot := none } = { t.label id with slot := none } ∧
      t.ShowsAll (t.children id) n.children := by
  cases n
  rw [Shows]

theorem showsAll_iff {ids : List Nat} {ns : List Node} : t.ShowsAll ids ns ↔ List.Forall₂ t.Shows ids ns := by
  induction ns generalizing ids with
  | nil => rw [ShowsAll, List.forall₂_nil_right_iff]
  | cons n rest ih =>
    rw [ShowsAll, List.forall₂_cons_right_iff]
    exact ⟨fun ⟨id, more, hids, hn, hrest⟩ => ⟨id, more, hn, ih.1 hrest, hids⟩,
      fun ⟨id, more, hn, hrest, hids⟩ => ⟨id, more, hids, hn, ih.2 hrest⟩⟩

theorem showsAll_cons {ids : List Nat} {n : Node} {rest : List Node} :
    t.ShowsAll (id :: ids) (n :: rest) ↔ t.Shows id n ∧ t.ShowsAll ids rest := by
  rw [showsAll_iff, showsAll_iff, List.forall₂_cons]

theorem showsAll_nil : t.ShowsAll [] [] := by rw [ShowsAll]

theorem showsAll_singleton {n : Node} : t.ShowsAll [id] [n] ↔ t.Shows id n := by
  rw [showsAll_cons, and_iff_left showsAll_nil]

theorem ShowsAll.eq_nil {ns : List Node} (h : t.ShowsAll [] ns) : ns = [] :=
  List.forall₂_nil_left_iff.1 (showsAll_iff.1 h)

theorem ShowsAll.ids_eq_nil {ids : List Nat} (h : t.ShowsAll ids []) : ids = [] :=
  List.forall₂_nil_right_iff.1 (showsAll_iff.1 h)

/-- Where nodes stand, there are numbers. -/
theorem ShowsAll.exists_cons {ids : List Nat} {n : Node} {rest : List Node} (h : t.ShowsAll ids (n :: rest)) :
    ∃ id more, ids = id :: more ∧ t.Shows id n ∧ t.ShowsAll more rest := by rwa [ShowsAll] at h

theorem ShowsAll.append {ids ids' : List Nat} {ns ns' : List Node} (h : t.ShowsAll ids ns)
    (h' : t.ShowsAll ids' ns') : t.ShowsAll (ids ++ ids') (ns ++ ns') :=
  showsAll_iff.2 (List.rel_append (showsAll_iff.1 h) (showsAll_iff.1 h'))

mutual

theorem shows_unslotted {id : Nat} : ∀ {n : Node}, t.Shows id n.unslotted ↔ t.Shows id n
  | ⟨label, children⟩ => by rw [Node.unslotted, Shows, Shows, showsAll_unslottedAll]

theorem showsAll_unslottedAll {ids : List Nat} : ∀ {ns : List Node},
    t.ShowsAll ids (Node.unslottedAll ns) ↔ t.ShowsAll ids ns
  | [] => by rw [Node.unslottedAll]
  | n :: rest => by simp only [Node.unslottedAll, ShowsAll, shows_unslotted, showsAll_unslottedAll]

end

namespace Shows

variable {n : Node}

theorem label_eq (h : t.Shows id n) : { n.label with slot := none } = { t.label id with slot := none } :=
  (shows_iff.1 h).1

theorem children (h : t.Shows id n) : t.ShowsAll (t.children id) n.children := (shows_iff.1 h).2

theorem kind_eq (h : t.Shows id n) : n.kind = t.kind id := (congrArg Label.kind h.label_eq :)

theorem content_eq (h : t.Shows id n) : n.content = (t.label id).content := (congrArg Label.content h.label_eq :)

end Shows

mutual

theorem shows_of_below (ht : t.Sound) {id : Nat} (h : t.SameBelow t' id) :
    ∀ {n : Node}, t.Shows id n → t'.Shows id n
  | ⟨label, children⟩, hn => by
    rw [Shows] at hn ⊢
    rw [label_of_slot? h.self, children_of_slot? h.self]
    exact ⟨hn.1, showsAll_of_below ht (fun _ hc => h.child ht hc) hn.2⟩

/-- What stands at nodes stays there if what is below them is the same. -/
theorem showsAll_of_below (ht : t.Sound) {ids : List Nat} (h : ∀ id ∈ ids, t.SameBelow t' id) :
    ∀ {ns : List Node}, t.ShowsAll ids ns → t'.ShowsAll ids ns
  | [], hns => by
    rw [ShowsAll] at hns ⊢
    exact hns
  | n :: rest, hns => by
    rw [ShowsAll] at hns ⊢
    obtain ⟨id, more, rfl, hn, hrest⟩ := hns
    obtain ⟨hid, hmore⟩ := List.forall_mem_cons.1 h
    exact ⟨id, more, rfl, shows_of_below ht hid hn, showsAll_of_below ht hmore hrest⟩

end

mutual

/-- What stands at a slot exactly, stands there. -/
theorem Holds.shows {b id : Nat} : ∀ {n : Node}, t.Holds b id n → t.Shows id n
  | ⟨label, children⟩, hn => by
    rw [Holds] at hn
    obtain ⟨-, s, hs, rfl, hchildren⟩ := hn
    rw [Shows, Tree.label, Tree.children, hs]
    exact ⟨rfl, HoldsAll.shows hchildren⟩

theorem HoldsAll.shows {b : Nat} {ids : List Nat} : ∀ {ns : List Node}, t.HoldsAll b ids ns → t.ShowsAll ids ns
  | [], hns => by
    rw [HoldsAll] at hns
    rwa [ShowsAll]
  | n :: rest, hns => by
    rw [HoldsAll] at hns
    obtain ⟨id, more, hids, hn, hrest⟩ := hns
    rw [ShowsAll]
    exact ⟨id, more, hids, Holds.shows hn, HoldsAll.shows hrest⟩

end

/-- The document below a slot is the one that stands there. -/
theorem Shows.unslotted_subtreeTo (ht : t.Sound) (depth : Nat) {n : Node} (hn : t.Shows id n)
    (hdepth : t.slots.size ≤ id + depth) : (t.subtreeTo depth id).unslotted = n.unslotted := by
  induction depth generalizing id n with
  | zero =>
    have hleaf : t.children id = [] := by rw [Tree.children, slot?_eq_none t id hdepth]; rfl
    obtain ⟨label, children⟩ := n
    rw [Shows, hleaf] at hn
    obtain ⟨hlabel, hchildren⟩ := hn
    obtain rfl := hchildren.eq_nil
    rw [subtreeTo, Node.leaf, Node.unslotted, Node.unslotted, hlabel, Node.unslottedAll]
  | succ depth ih =>
    have hall : ∀ {ids : List Nat} {ns : List Node}, (∀ c ∈ ids, id < c) → t.ShowsAll ids ns →
        Node.unslottedAll (t.subtreesTo depth ids) = Node.unslottedAll ns := by
      intro ids ns hlt hns
      induction ns generalizing ids with
      | nil =>
        rw [hns.ids_eq_nil, subtreesTo]
      | cons n rest ihrest =>
        obtain ⟨c, more, rfl, hn, hrest⟩ := hns.exists_cons
        obtain ⟨hc, hmore⟩ := List.forall_mem_cons.1 hlt
        rw [subtreesTo, Node.unslottedAll, Node.unslottedAll, ihrest hmore hrest, ih hn (by omega)]
    obtain ⟨label, children⟩ := n
    rw [Shows] at hn
    rw [subtreeTo, Node.unslotted, Node.unslotted, hn.1, hall (fun c hc => (ht.child hc).1) hn.2]

theorem Sound.shows_subtreeTo (ht : t.Sound) (depth : Nat) {id : Nat} (hdepth : t.slots.size ≤ id + depth) :
    t.Shows id (t.subtreeTo depth id) := by
  induction depth generalizing id with
  | zero =>
    have hleaf : t.children id = [] := by rw [Tree.children, slot?_eq_none t id hdepth]; rfl
    rw [subtreeTo, Node.leaf, Shows, hleaf, ShowsAll]
    exact ⟨rfl, rfl⟩
  | succ depth ih =>
    have hall {ids : List Nat} (hlt : ∀ c ∈ ids, id < c) : t.ShowsAll ids (t.subtreesTo depth ids) := by
      induction ids with
      | nil => rw [subtreesTo, ShowsAll]
      | cons c more ihmore =>
        obtain ⟨hc, hmore⟩ := List.forall_mem_cons.1 hlt
        rw [subtreesTo, showsAll_cons]
        exact ⟨ih (by omega), ihmore hmore⟩
    rw [subtreeTo, Shows]
    exact ⟨rfl, hall fun c hc => (ht.child hc).1⟩

end

/-! ## What is touched -/

section

variable {t t' t₂ : Tree} {touched touched' : Nat → Prop} {p c : Nat}

namespace Reworks

theorem refl (t : Tree) : t.Reworks t fun _ => False := ⟨.refl, Nat.le_refl _, fun _ _ => rfl⟩

/-- Slots are touched, new ones aside. -/
theorem mono (h : t.Reworks t' touched) (hle : ∀ {q}, q < t.slots.size → touched q → touched' q) :
    t.Reworks t' touched' :=
  ⟨h.edits, h.size_le, fun hq hn => h.slot?_eq hq fun ht => hn (hle hq ht)⟩

theorem trans (h : t.Reworks t' touched) (h' : t'.Reworks t₂ touched') :
    t.Reworks t₂ fun q => touched q ∨ touched' q :=
  ⟨Relation.ReflTransGen.trans h.edits h'.edits, Nat.le_trans h.size_le h'.size_le, fun hq hn =>
    (h'.slot?_eq (Nat.lt_of_lt_of_le hq h.size_le) fun ht => hn (.inr ht)).trans
      (h.slot?_eq hq fun ht => hn (.inl ht))⟩

/-- What is below a node that is not touched is the same. -/
theorem sameBelow (h : t.Reworks t' touched) (ht : t.Sound) (hc : t.isAttached c = true)
    (hn : ∀ q ∈ t.descendants c, ¬ touched q) : t.SameBelow t' c := fun q hq =>
  h.slot?_eq (lt_of_isAttached (ht.isAttached_of_mem_below hc hq)) (hn q hq)

end Reworks

namespace Relists

variable {ids ids' : List Nat}

theorem refl (t : Tree) (p : Nat) : t.Relists t p (t.children p) := by
  rw [Relists, children]
  cases t.slot? p <;> rfl

theorem trans (h : t.Relists t' p ids) (h' : t'.Relists t₂ p ids') : t.Relists t₂ p ids' := by
  rw [Relists, h', h, Option.map_map]
  rfl

theorem of_slot? (h : t'.slot? p = t.slot? p) : t.Relists t' p (t.children p) := by
  rw [Relists, h]
  exact refl t p

theorem children_eq (h : t.Relists t' p ids) (hp : p < t.slots.size) : t'.children p = ids := by
  obtain ⟨s, hs⟩ := exists_slot? hp
  rw [children, h, hs]
  rfl

theorem isAttached_eq (h : t.Relists t' p ids) : t'.isAttached p = t.isAttached p := by
  rw [isAttached, isAttached, h]
  cases t.slot? p <;> rfl

/-- A node shows what stands at its new children. -/
theorem shows (h : t.Relists t' p ids) (hp : p < t.slots.size) {n : Node} (hn : t.Shows p n) {ns : List Node}
    (hns : t'.ShowsAll ids ns) : t'.Shows p (n.withChildren ns) := by
  obtain ⟨s, hs⟩ := exists_slot? hp
  have hlabel := hn.label_eq
  rw [label, hs] at hlabel
  rw [shows_iff, label, h.children_eq hp, h, hs]
  exact ⟨hlabel, hns⟩

end Relists

/-! ## What each operation touches -/

theorem reworks_pushChild (hp : t.isAttached p = true) (label : Label) :
    t.Reworks (t.pushChild p label).2 (· = p) := by
  refine ⟨.edit (.push p label) hp, by rw [size_pushChild]; exact Nat.le_succ _, fun {q} hq hn => ?_⟩
  rw [slot?_pushChild label q (lt_of_isAttached hp), if_neg (Nat.ne_of_lt hq), if_neg hn]

theorem relists_pushChild (hp : t.isAttached p = true) (label : Label) :
    t.Relists (t.pushChild p label).2 p (t.children p ++ [t.slots.size]) := by
  have hlt := lt_of_isAttached hp
  obtain ⟨s, hs⟩ := exists_slot? hlt
  rw [Relists, slot?_pushChild label p hlt, if_neg (Nat.ne_of_lt hlt), if_pos rfl, children, hs]
  rfl

theorem reworks_addSibling (ht : t.Sound) (hc : c ∈ t.children p) (label : Label) :
    t.Reworks (t.addSibling c label).2 (· = p) := by
  obtain ⟨-, hp, hattached, hparent⟩ := ht.child hc
  refine ⟨.edit (.sibling c label) hattached, ?_, fun {q} hq hn => ?_⟩
  · rw [size_addSibling label hparent]
    exact Nat.le_succ _
  · rw [slot?_addSibling label q hparent (lt_of_isAttached hp), if_neg (Nat.ne_of_lt hq), if_neg hn]

theorem Sound.ne_root_of_child (ht : t.Sound) (hc : c ∈ t.children p) : c ≠ root :=
  Nat.ne_of_gt (Nat.lt_of_le_of_lt (Nat.zero_le _) (ht.child hc).1)

theorem Sound.not_mem_descendants_of_child (ht : t.Sound) (hc : c ∈ t.children p) : p ∉ t.descendants c :=
  fun hp => Nat.not_lt_of_le (ht.le_of_mem_below hp) (ht.child hc).1

theorem reworks_remove (ht : t.Sound) (hc : c ∈ t.children p) : t.Reworks (t.remove c) (t.Under p [c]) := by
  obtain ⟨-, -, hattached, hparent⟩ := ht.child hc
  refine ⟨.edit (.remove c) hattached, Nat.le_of_eq (size_remove t c).symm, fun {q} _ hn => ?_⟩
  simp only [Under, List.mem_singleton, exists_eq_left, not_or] at hn
  have hne : c ≠ q := fun heq => hn.2 (heq ▸ mem_below_self _ _)
  rw [slot?_remove t q (ht.ne_root_of_child hc), hparent]
  simp [hn.2, hne, Ne.symm hn.1]

theorem relists_remove (ht : t.Sound) (hc : c ∈ t.children p) :
    t.Relists (t.remove c) p ((t.children p).filter (· ∉ [c])) := by
  obtain ⟨hlt, hp, -, hparent⟩ := ht.child hc
  obtain ⟨s, hs⟩ := exists_slot? (lt_of_isAttached hp)
  have hfilter : s.children.filter (· != c) = s.children.filter (· ∉ [c]) :=
    List.filter_congr fun d _ => by simp [bne, beq_eq_decide]
  rw [Relists, slot?_remove t p (ht.ne_root_of_child hc), hparent, children, hs]
  simp only [ht.not_mem_descendants_of_child hc, Nat.ne_of_gt hlt, hfilter, if_true, if_false, decide_false,
    Bool.or_false, Option.map_some, Option.getD_some]

theorem removed_below_remove (ht : t.Sound) (hc : c ∈ t.children p) {q : Nat} (hq : q ∈ t.descendants c) :
    (t.remove c).Removed q := by
  refine ⟨?_, Bool.eq_false_iff.2 fun h => ((isAttached_remove t q (ht.ne_root_of_child hc)).1 h).2 hq⟩
  rw [size_remove]
  exact lt_of_isAttached (ht.isAttached_of_mem_below (ht.child hc).2.2.1 hq)

namespace Pruned

variable {gone gone' : List Nat}

theorem refl (t : Tree) (p : Nat) : t.Pruned t p [] := by
  refine ⟨fun c hc => absurd hc List.not_mem_nil, (Reworks.refl t).mono fun _ h => h.elim, ?_,
    fun c hc => absurd hc List.not_mem_nil⟩
  have hall : (t.children p).filter (· ∉ []) = t.children p := List.filter_eq_self.2 fun _ _ => by simp
  rw [hall]
  exact .refl t p

/-- It does not matter in which order children are named. -/
theorem perm (h : t.Pruned t' p gone) (hperm : gone.Perm gone') : t.Pruned t' p gone' := by
  refine ⟨fun c hc => h.listed c (hperm.mem_iff.2 hc), ?_, ?_, fun c hc => h.removed c (hperm.mem_iff.2 hc)⟩
  · exact h.reworks.mono fun _ htouched => by simpa only [Under, hperm.mem_iff] using htouched
  · simpa only [hperm.mem_iff] using h.relists

theorem mem_children_iff (h : t.Pruned t' p gone) (hp : p < t.slots.size) :
    c ∈ t'.children p ↔ c ∈ t.children p ∧ c ∉ gone := by
  rw [h.relists.children_eq hp, List.mem_filter, decide_eq_true_iff]

/-- What is below the other children is the same. -/
theorem sameBelow (h : t.Pruned t' p gone) (ht : t.Sound) (hc : c ∈ t.children p) (hn : c ∉ gone) :
    t.SameBelow t' c := by
  obtain ⟨hlt, -, hattached, -⟩ := ht.child hc
  refine h.reworks.sameBelow ht hattached fun q hq htouched => ?_
  obtain rfl | ⟨d, hd, hqd⟩ := htouched
  · exact Nat.lt_irrefl _ (Nat.lt_of_lt_of_le hlt (ht.le_of_mem_below hq))
  · exact hn (ht.eq_of_mem_below hc (h.listed d hd) hq hqd ▸ hd)

/-- More children are taken away. -/
theorem trans (h : t.Pruned t' p gone) (h' : t'.Pruned t₂ p gone') (ht : t.Sound) (hp : p < t.slots.size) :
    t.Pruned t₂ p (gone ++ gone') := by
  have ht' := h.reworks.edits.sound ht
  have hlisted {d : Nat} (hd : d ∈ gone') : d ∈ t.children p ∧ d ∉ gone :=
    (h.mem_children_iff hp).1 (h'.listed d hd)
  have hbelow {d q : Nat} (hd : d ∈ gone') : q ∈ t'.descendants d ↔ q ∈ t.descendants d :=
    (h.sameBelow ht (hlisted hd).1 (hlisted hd).2).mem_iff ht ht'
  refine ⟨fun d hd => ?_, (h.reworks.trans h'.reworks).mono fun {q} _ htouched => ?_, ?_, fun d hd q hq => ?_⟩
  · exact (List.mem_append.1 hd).elim (h.listed d) fun hd => (hlisted hd).1
  · obtain (hq | ⟨d, hd, hq⟩) | (hq | ⟨d, hd, hq⟩) := htouched
    · exact .inl hq
    · exact .inr ⟨d, List.mem_append_left _ hd, hq⟩
    · exact .inl hq
    · exact .inr ⟨d, List.mem_append_right _ hd, (hbelow hd).1 hq⟩
  · have hfilter : (t.children p).filter (· ∉ gone ++ gone') =
        ((t.children p).filter (· ∉ gone)).filter (· ∉ gone') := by
      simp [List.filter_filter, Bool.and_comm]
    rw [hfilter, ← h.relists.children_eq hp]
    exact h.relists.trans h'.relists
  · obtain hd | hd := List.mem_append.1 hd
    · exact h'.reworks.edits.removed ht' (h.removed d hd q hq)
    · exact h'.removed d hd q ((hbelow hd).2 hq)

end Pruned

theorem pruned_remove (ht : t.Sound) (hc : c ∈ t.children p) : t.Pruned (t.remove c) p [c] := by
  refine ⟨fun d hd => ?_, reworks_remove ht hc, relists_remove ht hc, fun d hd q hq => ?_⟩
  · exact List.mem_singleton.1 hd ▸ hc
  · exact removed_below_remove ht hc (List.mem_singleton.1 hd ▸ hq)

theorem pruned_foldl_remove (ht : t.Sound) (hp : p < t.slots.size) {ids : List Nat} (hnodup : ids.Nodup)
    (hids : ∀ d ∈ ids, d ∈ t.children p) : t.Pruned (ids.foldl remove t) p ids := by
  induction ids generalizing t with
  | nil => exact .refl t p
  | cons c rest ih =>
    obtain ⟨hc, hrest⟩ := List.forall_mem_cons.1 hids
    obtain ⟨hfresh, hnodup⟩ := List.nodup_cons.1 hnodup
    have hpruned := pruned_remove ht hc
    refine hpruned.trans (ih (hpruned.reworks.edits.sound ht) ?_ hnodup fun d hd => ?_) ht hp
    · exact Nat.lt_of_lt_of_le hp hpruned.reworks.size_le
    · exact (hpruned.mem_children_iff hp).2
        ⟨hrest d hd, fun hdc => hfresh (List.mem_singleton.1 hdc ▸ hd)⟩

theorem pruned_removeChildren (ht : t.Sound) (hp : p < t.slots.size) (kind : Kind) :
    t.Pruned (t.removeChildren p kind) p ((t.children p).filter fun c => t.kind c == kind) :=
  pruned_foldl_remove ht hp ((ht.nodup p).filter _) fun _ hd => (List.mem_filter.1 hd).1

end

/-! ## What stands at an edited node -/

section

variable {t : Tree} {id : Nat} {n : Node}

/-- Children of a kind are taken away. -/
theorem shows_removeChildren (ht : t.Sound) (hid : t.isAttached id = true) (hn : t.Shows id n) (kind : Kind) :
    t.Reworks (t.removeChildren id kind) (· ∈ t.descendants id) ∧
      (t.removeChildren id kind).Shows id (n.withChildren (n.children.filter fun m => m.kind != kind)) := by
  have hpruned := pruned_removeChildren ht (lt_of_isAttached hid) kind
  have hself : id ∈ t.descendants id := mem_below_self _ _
  refine ⟨hpruned.reworks.mono fun _ htouched => ?_, ?_⟩
  · obtain rfl | ⟨c, hc, hq⟩ := htouched
    · exact hself
    · exact ht.mem_descendants_of_child (hpruned.listed c hc) hq
  · have hfilter : (t.children id).filter (· ∉ (t.children id).filter fun c => t.kind c == kind) =
        (t.children id).filter fun c => t.kind c != kind := by
      refine List.filter_congr fun c hc => ?_
      by_cases hkind : t.kind c = kind <;> simp [List.mem_filter, hc, hkind]
    refine hpruned.relists.shows (lt_of_isAttached hid) hn (hfilter ▸ ?_)
    refine showsAll_of_below ht (fun c hc => ?_) (showsAll_iff.2 ?_)
    · obtain ⟨hc, hkind⟩ := List.mem_filter.1 hc
      refine hpruned.sameBelow ht hc fun hgone => ?_
      exact bne_iff_ne.1 hkind (beq_iff_eq.1 (List.mem_filter.1 hgone).2)
    · refine List.rel_filter (fun c m hm => ?_) (showsAll_iff.1 hn.children)
      show (t.kind c != kind) = true ↔ (m.kind != kind) = true
      rw [hm.kind_eq]

/-- A new last child. -/
theorem shows_pushChild (ht : t.Sound) (hid : t.isAttached id = true) (hn : t.Shows id n) (label : Label) :
    (t.pushChild id label).2.Shows id (n.withChildren (n.children ++ [.leaf label])) := by
  have hlt := lt_of_isAttached hid
  refine (relists_pushChild hid label).shows hlt hn (.append ?_ ?_)
  · refine showsAll_of_below ht (fun c hc => ?_) hn.children
    obtain ⟨hidc, -, hattached, -⟩ := ht.child hc
    exact (reworks_pushChild hid label).sameBelow ht hattached fun q hq =>
      Nat.ne_of_gt (Nat.lt_of_lt_of_le hidc (ht.le_of_mem_below hq))
  · have hnew := (slot?_pushChild label t.slots.size hlt).trans (if_pos rfl)
    rw [showsAll_singleton, Node.leaf, Shows, Tree.label, Tree.children, hnew]
    exact ⟨rfl, showsAll_nil⟩

end

end Evomark.Tree
