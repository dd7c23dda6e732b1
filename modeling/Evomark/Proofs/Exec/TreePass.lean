import Evomark.Proofs.Exec.TreeMarkers
import Evomark.Proofs.Exec.TreeStep
/-!
# A pass over a tree

A pass lists its commands first and then works on one after the other, while the tree changes under it. What it
relies on is that the nodes to come are still as they were when the commands were listed (`Tree.Ahead`) or have
been taken away with the markers they stood below (`Ahead.prune`). So a pass over a tree does what `runNodes`
does to the nodes that stand there (`follows_runNodes`): it consists of edits at attached nodes, and ends where
`exec` ends with the document of the tree (`Sound.pass`).
-/

namespace Evomark.Tree

/-! ## Commands to come -/

section

variable {t : Tree} {rules : Table ExecRule} {s : ExecState}

theorem commandsAmong_append (t : Tree) (depth : Nat) (ids ids' : List Nat) :
    t.commandsAmong depth (ids ++ ids') = t.commandsAmong depth ids ++ t.commandsAmong depth ids' := by
  induction ids with
  | nil => rw [commandsAmong]; rfl
  | cons id rest ih => rw [List.cons_append, commandsAmong, commandsAmong, ih, List.append_assoc]

/-- Commands are found among the nodes and below them. -/
theorem mem_commandsAmong {P : Nat → Prop} (hP : ∀ {q}, P q → ∀ c ∈ t.children q, P c) {depth c : Nat}
    {ids : List Nat} (hids : ∀ id ∈ ids, P id) (hc : c ∈ t.commandsAmong depth ids) : P c := by
  have hall {depth : Nat} (hbelow : ∀ {id}, P id → c ∈ t.commandsBelow depth id → P c) {ids : List Nat}
      (hids : ∀ id ∈ ids, P id) (hc : c ∈ t.commandsAmong depth ids) : P c := by
    induction ids with
    | nil => simp [commandsAmong] at hc
    | cons id rest ih =>
      obtain ⟨hid, hrest⟩ := List.forall_mem_cons.1 hids
      rw [commandsAmong, List.mem_append] at hc
      refine hc.elim (fun hc => ?_) (ih hrest)
      split at hc
      · rwa [List.mem_singleton.1 hc]
      · exact hbelow hid hc
  have hbelow (depth : Nat) : ∀ {id}, P id → c ∈ t.commandsBelow depth id → P c := by
    induction depth with
    | zero => simp [commandsBelow]
    | succ depth ih => exact fun hid hc => hall ih (hP hid) (by rwa [commandsBelow] at hc)
  exact hall (hbelow depth) hids hc

/-- Numbers of nodes that have been taken away are passed over. -/
theorem runAll_of_removed {gone : List Nat} (h : ∀ c ∈ gone, t.Removed c) (later : List Nat) :
    runAll rules (gone ++ later) t s = runAll rules later t s := by
  induction gone with
  | nil => rfl
  | cons c rest ih =>
    obtain ⟨hc, hrest⟩ := List.forall_mem_cons.1 h
    rw [List.cons_append, runAll, hc.2]
    exact ih hrest

end

/-- A pass has come from `t₀` to `t`, and of the children of `p` the nodes `ids` are still to come, where the
nodes `ns` stand. What is below them is as it was when the commands were listed. -/
structure Ahead (t₀ t : Tree) (p : Nat) (pre ids : List Nat) (ns : List Node) : Prop where
  edits : t₀.Edits t
  children : t.children p = pre ++ ids
  below : ∀ c ∈ ids, c ∈ t₀.children p ∧ t₀.SameBelow t c
  shows : t.ShowsAll ids ns

/-- A pass over `t₀` has come from `t` to `t'` and has touched only what is below the children `ids` of `p`,
which lists other children now. -/
structure Moves (t₀ t t' : Tree) (p : Nat) (ids children : List Nat) : Prop where
  reworks : t.Reworks t' (t₀.Under p ids)
  relists : t.Relists t' p children

section

variable {t₀ t t' t₂ : Tree} {p c : Nat} {pre pre' ids ids' gone rest new all all' : List Nat} {n : Node}
  {ns ns' : List Node}

namespace Moves

theorem refl (t₀ t : Tree) (p : Nat) : Moves t₀ t t p [] (t.children p) :=
  ⟨(Reworks.refl t).mono fun _ h => h.elim, .refl t p⟩

theorem mono (h : Moves t₀ t t' p ids all) (hids : ∀ c ∈ ids, c ∈ ids') : Moves t₀ t t' p ids' all :=
  ⟨h.reworks.mono fun _ htouched => htouched.imp_right fun ⟨c, hc, hq⟩ => ⟨c, hids c hc, hq⟩, h.relists⟩

theorem trans (h : Moves t₀ t t' p ids all) (h' : Moves t₀ t' t₂ p ids' all') :
    Moves t₀ t t₂ p (ids ++ ids') all' := by
  have h := h.mono fun _ hc => List.mem_append_left ids' hc
  have h' := h'.mono fun _ hc => List.mem_append_right ids hc
  exact ⟨(h.reworks.trans h'.reworks).mono fun _ htouched => htouched.elim id id, h.relists.trans h'.relists⟩

end Moves

theorem Put.moves (h : Put t t' p pre new rest ns) : Moves t₀ t t' p [] (pre ++ (new ++ rest)) :=
  ⟨h.reworks.mono fun _ htouched => .inl htouched, h.relists⟩

namespace Ahead

theorem first (h : Ahead t₀ t p pre (c :: ids) (n :: ns)) : t.Shows c n := (showsAll_cons.1 h.shows).1

theorem lt_size (h : Ahead t₀ t p pre (c :: ids) ns) : p < t.slots.size :=
  lt_of_mem_children (mem_of_siblings h.children)

theorem isAttached (h : Ahead t₀ t p pre (c :: ids) ns) (ht₀ : t₀.Sound) : t.isAttached c = true :=
  ((h.edits.sound ht₀).child (mem_of_siblings h.children)).2.2.1

theorem runStep (h : Ahead t₀ t p pre (c :: ids) (n :: ns)) (ht₀ : t₀.Sound) (rules : Table ExecRule)
    (s : ExecState) : t.StepsTo c (Evomark.runStep rules n s) (t.runStep rules c s) :=
  (h.edits.sound ht₀).runStep (h.isAttached ht₀) h.first rules s

theorem mem_descendants_iff (h : Ahead t₀ t p pre ids ns) (ht₀ : t₀.Sound) (hc : c ∈ ids) {q : Nat} :
    q ∈ t.descendants c ↔ q ∈ t₀.descendants c := (h.below c hc).2.mem_iff ht₀ (h.edits.sound ht₀)

/-- What is below a child that is not worked on is the same. -/
theorem sameBelow (h : Ahead t₀ t p pre ids ns) (ht₀ : t₀.Sound) (hr : t.Reworks t' (t₀.Under p gone))
    (hgone : ∀ d ∈ gone, d ∈ ids) (hc : c ∈ t.children p) (hn : c ∉ gone) : t.SameBelow t' c := by
  have ht := h.edits.sound ht₀
  obtain ⟨hlt, -, hattached, -⟩ := ht.child hc
  refine hr.sameBelow ht hattached fun q hq htouched => ?_
  obtain rfl | ⟨d, hd, hqd⟩ := htouched
  · exact Nat.lt_irrefl _ (Nat.lt_of_lt_of_le hlt (ht.le_of_mem_below hq))
  · have hdt : d ∈ t.children p := h.children ▸ List.mem_append_right _ (hgone d hd)
    exact hn (ht.eq_of_mem_below hc hdt hq ((h.mem_descendants_iff ht₀ (hgone d hd)).2 hqd) ▸ hd)

/-- What stands at children that are not worked on stays there. -/
theorem keeps (h : Ahead t₀ t p pre ids ns) (ht₀ : t₀.Sound) (hr : t.Reworks t' (t₀.Under p gone))
    (hgone : ∀ d ∈ gone, d ∈ ids) (hids : ∀ c ∈ ids', c ∈ t.children p ∧ c ∉ gone)
    (hns : t.ShowsAll ids' ns') : t'.ShowsAll ids' ns' :=
  showsAll_of_below (h.edits.sound ht₀)
    (fun c hc => h.sameBelow ht₀ hr hgone (hids c hc).1 (hids c hc).2) hns

/-- The nodes to come are children of their own. -/
theorem others (h : Ahead t₀ t p pre ids ns) (ht₀ : t₀.Sound) (hperm : ids.Perm (gone ++ ids')) :
    (∀ d ∈ gone, d ∈ ids) ∧ ∀ c ∈ ids', c ∈ t.children p ∧ c ∉ gone := by
  have hnodup := (List.nodup_append.1 (h.children ▸ (h.edits.sound ht₀).nodup p)).2.1
  refine ⟨fun d hd => hperm.mem_iff.2 (List.mem_append_left _ hd), fun c hc => ⟨?_, fun hg => ?_⟩⟩
  · exact h.children ▸ List.mem_append_right _ (hperm.mem_iff.2 (List.mem_append_right _ hc))
  · exact (List.nodup_append.1 (hperm.nodup_iff.1 hnodup)).2.2 c hg c hc rfl

/-- What stands before the nodes to come stays there. -/
theorem keeps_before (h : Ahead t₀ t p (pre ++ pre') ids ns) (ht₀ : t₀.Sound)
    (hr : t.Reworks t' (t₀.Under p ids)) (hns : t.ShowsAll pre' ns') : t'.ShowsAll pre' ns' := by
  have hnodup := h.children ▸ (h.edits.sound ht₀).nodup p
  refine h.keeps ht₀ hr (fun _ hd => hd) (fun c hc => ?_) hns
  have hc := List.mem_append_right pre hc
  exact ⟨h.children ▸ List.mem_append_left ids hc, fun hids => (List.nodup_append.1 hnodup).2.2 c hc c hids rfl⟩

/-- The pass goes on with some of the nodes, having worked on the others. -/
theorem next (h : Ahead t₀ t p pre ids ns) (ht₀ : t₀.Sound) (hp : p < t.slots.size)
    (hm : Moves t₀ t t' p gone (pre' ++ ids')) (hperm : ids.Perm (gone ++ ids'))
    (hns : t'.ShowsAll ids' ns') : Ahead t₀ t' p pre' ids' ns' := by
  obtain ⟨hgone, hids⟩ := h.others ht₀ hperm
  refine ⟨h.edits.trans hm.reworks.edits, hm.relists.children_eq hp, fun c hc => ?_, hns⟩
  obtain ⟨hlisted, hbelow⟩ := h.below c (hperm.mem_iff.2 (List.mem_append_right _ hc))
  exact ⟨hlisted, hbelow.trans ht₀ (h.edits.sound ht₀)
    (h.sameBelow ht₀ hm.reworks hgone (hids c hc).1 (hids c hc).2)⟩

/-- Nodes are put before those to come. -/
theorem put (h : Ahead t₀ t p pre ids ns) (ht₀ : t₀.Sound) (hp : p < t.slots.size)
    (hput : Put t t' p pre new ids ns') : Ahead t₀ t' p (pre ++ new) ids ns := by
  have hmoves : Moves t₀ t t' p [] (pre ++ new ++ ids) := (List.append_assoc pre new ids).symm ▸ hput.moves
  refine h.next ht₀ hp hmoves (List.Perm.refl ids) (hput.keeps (h.edits.sound ht₀) (fun d hd => ?_) h.shows)
  exact h.children ▸ List.mem_append_right _ hd

/-- The first of the nodes has been worked on. -/
theorem advance (h : Ahead t₀ t p pre (c :: ids) (n :: ns)) (ht₀ : t₀.Sound)
    (hm : Moves t₀ t t' p [c] (pre ++ c :: ids)) : Ahead t₀ t' p (pre ++ [c]) ids ns := by
  obtain ⟨hgone, hids⟩ := h.others ht₀ (List.Perm.refl ([c] ++ ids))
  have hmoves : Moves t₀ t t' p [c] (pre ++ [c] ++ ids) := (List.append_assoc pre [c] ids).symm ▸ hm
  exact h.next ht₀ h.lt_size hmoves (List.Perm.refl _)
    (h.keeps ht₀ hm.reworks hgone hids (showsAll_cons.1 h.shows).2)

/-- Some of the nodes have been taken away, and with them the commands below them. -/
theorem prune (h : Ahead t₀ t p pre ids ns) (ht₀ : t₀.Sound) (hp : p < t.slots.size)
    (hpruned : t.Pruned t' p gone) (hchildren : t'.children p = pre' ++ ids')
    (hperm : ids.Perm (gone ++ ids')) (hns : t'.ShowsAll ids' ns') :
    Moves t₀ t t' p gone (pre' ++ ids') ∧ Ahead t₀ t' p pre' ids' ns' ∧
      ∀ depth, ∀ c ∈ t₀.commandsAmong depth gone, t'.Removed c := by
  obtain ⟨hgone, -⟩ := h.others ht₀ hperm
  have hbelow {d q : Nat} (hd : d ∈ gone) := h.mem_descendants_iff ht₀ (hgone d hd) (q := q)
  have hmoves : Moves t₀ t t' p gone (pre' ++ ids') := by
    refine ⟨hpruned.reworks.mono fun _ htouched =>
      htouched.imp_right fun ⟨d, hd, hq⟩ => ⟨d, hd, (hbelow hd).1 hq⟩, ?_⟩
    rw [← hchildren, hpruned.relists.children_eq hp]
    exact hpruned.relists
  refine ⟨hmoves, h.next ht₀ hp hmoves hperm hns, fun depth c hc => ?_⟩
  obtain ⟨d, hd, hcd⟩ := mem_commandsAmong (P := fun q => ∃ d ∈ gone, q ∈ t₀.descendants d)
    (fun ⟨d, hd, hq⟩ _ hc => ⟨d, hd, ht₀.child_mem_descendants hq hc⟩)
    (fun d hd => ⟨d, hd, mem_below_self _ _⟩) hc
  exact hpruned.removed d hd c ((hbelow hd).2 hcd)

/-- A marker is passed over and taken away. -/
theorem consume (h : Ahead t₀ t p pre (c :: ids) (n :: ns)) (ht₀ : t₀.Sound) :
    ∃ gone ids', ids = gone ++ ids' ∧ Moves t₀ t (t.consumeMarker c) p (c :: gone) (pre ++ ids') ∧
      Ahead t₀ (t.consumeMarker c) p pre ids' (afterMarker n ns) ∧
      ∀ depth, ∀ d ∈ t₀.commandsAmong depth (c :: gone), (t.consumeMarker c).Removed d := by
  obtain ⟨hn, hns⟩ := showsAll_cons.1 h.shows
  obtain ⟨gone, ids', rfl, hpruned, hchildren, hafter⟩ :=
    (h.edits.sound ht₀).consumeMarker h.children hn hns
  exact ⟨gone, ids', rfl, h.prune ht₀ h.lt_size hpruned hchildren (List.Perm.refl _) hafter⟩

/-- The markers behind a node are taken away. -/
theorem strip (h : Ahead t₀ t p pre (c :: ids) (n :: ns)) (ht₀ : t₀.Sound) :
    ∃ gone ids', ids = gone ++ ids' ∧ Moves t₀ t (t.stripMarkersAfter c) p gone (pre ++ c :: ids') ∧
      Ahead t₀ (t.stripMarkersAfter c) p pre (c :: ids') (n :: stripMarkers ns) ∧
      ∀ depth, ∀ d ∈ t₀.commandsAmong depth gone, (t.stripMarkersAfter c).Removed d := by
  have ht := h.edits.sound ht₀
  obtain ⟨hn, hns⟩ := showsAll_cons.1 h.shows
  obtain ⟨gone, ids', rfl, hpruned, hchildren, hstrip⟩ := ht.stripMarkersAfter h.children hns
  have hperm : (c :: (gone ++ ids')).Perm (gone ++ c :: ids') := List.perm_middle.symm
  obtain ⟨hlisted, hfresh⟩ := (h.others ht₀ hperm).2 c List.mem_cons_self
  exact ⟨gone, ids', rfl, h.prune ht₀ h.lt_size hpruned hchildren hperm
    (showsAll_cons.2 ⟨shows_of_below ht (hpruned.sameBelow ht hlisted hfresh) hn, hstrip⟩)⟩

/-- A node that is not executed itself is worked on from inside. -/
theorem inside (h : Ahead t₀ t p pre (c :: ids) (n :: ns)) (ht₀ : t₀.Sound) :
    Ahead t₀ t c [] (t₀.children c) n.children := by
  have hbelow := (h.below c List.mem_cons_self).2
  have hchildren := children_of_slot? hbelow.self
  refine ⟨h.edits, hchildren, fun d hd => ⟨hd, hbelow.child ht₀ hd⟩, ?_⟩
  rw [← hchildren]
  exact h.first.children

/-- Only what is below the first of the nodes has been touched. -/
theorem moves_of_reworks (h : Ahead t₀ t p pre (c :: ids) (n :: ns)) (ht₀ : t₀.Sound)
    (hr : t.Reworks t' (· ∈ t₀.descendants c)) :
    Moves t₀ t t' p [c] (pre ++ c :: ids) ∧ Ahead t₀ t' p (pre ++ [c]) ids ns := by
  have hpc : p ∉ t₀.descendants c := ht₀.not_mem_descendants_of_child (h.below c List.mem_cons_self).1
  have hmoves : Moves t₀ t t' p [c] (pre ++ c :: ids) := by
    refine ⟨hr.mono fun _ hq => .inr ⟨c, List.mem_singleton_self c, hq⟩, ?_⟩
    rw [← h.children]
    exact .of_slot? (hr.slot?_eq h.lt_size hpc)
  exact ⟨hmoves, h.advance ht₀ hmoves⟩

theorem kind_eq (h : Ahead t₀ t p pre (c :: ids) (n :: ns)) : t₀.kind c = n.kind := by
  rw [h.first.kind_eq, kind, kind, label_of_slot? (h.below c List.mem_cons_self).2.self]

/-- A command stands first among the commands to come. -/
theorem commandsAmong_of_command (h : Ahead t₀ t p pre (c :: ids) (n :: ns)) (hn : n.kind.isCommand = true)
    (depth : Nat) : t₀.commandsAmong depth (c :: ids) = c :: t₀.commandsAmong depth ids := by
  rw [commandsAmong, h.kind_eq, if_pos hn]
  rfl

/-- The commands below a node that is none come first. -/
theorem commandsAmong_of_inside (h : Ahead t₀ t p pre (c :: ids) (n :: ns)) (hn : n.kind.isCommand = false)
    (ht₀ : t₀.Sound) {depth : Nat} (hdepth : t₀.slots.size ≤ c + depth) : ∃ d, depth = d + 1 ∧
      t₀.commandsAmong depth (c :: ids) = t₀.commandsAmong d (t₀.children c) ++ t₀.commandsAmong depth ids := by
  have hlt := lt_of_isAttached (ht₀.child (h.below c List.mem_cons_self).1).2.2.1
  obtain ⟨d, rfl⟩ : ∃ d, depth = d + 1 := ⟨depth - 1, by omega⟩
  refine ⟨d, rfl, ?_⟩
  rw [commandsAmong, h.kind_eq, hn, commandsBelow]
  rfl

end Ahead

end

/-! ## The run -/

/-- A pass goes on with later commands unless it has ended. -/
def resume (rules : Table ExecRule) (later : List Nat) (t : Tree) (w : Walk) : TreePass :=
  match w.outcome with
  | .completed => runAll rules later t w.state
  | outcome => ⟨t, w.state, outcome⟩

/-- Wherever a pass over `t₀` still has the nodes `ns` before it, it makes of them what `w` tells. -/
def Follows (t₀ : Tree) (rules : Table ExecRule) (ns : List Node) (s : ExecState) (w : Walk) : Prop :=
  ∀ ⦃t : Tree⦄ ⦃p : Nat⦄ ⦃pre ids : List Nat⦄ (depth : Nat) (later : List Nat), Ahead t₀ t p pre ids ns →
    (∀ c ∈ ids, t₀.slots.size ≤ c + depth) → ∃ t' ids', Moves t₀ t t' p ids (pre ++ ids') ∧
      t'.ShowsAll ids' w.nodes ∧ runAll rules (t₀.commandsAmong depth ids ++ later) t s = resume rules later t' w

section

variable {t₀ : Tree} {rules : Table ExecRule} {n : Node} {rest : List Node} {s : ExecState}

theorem follows_nil (t₀ : Tree) (rules : Table ExecRule) (s : ExecState) :
    t₀.Follows rules [] s ⟨[], s, .completed⟩ := by
  intro t p pre ids depth later h _
  obtain rfl := h.shows.ids_eq_nil
  refine ⟨t, [], h.children ▸ Moves.refl t₀ t p, showsAll_nil, ?_⟩
  rw [commandsAmong]
  rfl

theorem follows_marker (ht₀ : t₀.Sound) (hm : n.isMarker = true)
    (ih : t₀.Follows rules (afterMarker n rest) s (runNodes rules (afterMarker n rest) s)) :
    t₀.Follows rules (n :: rest) s (runNodes rules (afterMarker n rest) s) := by
  intro t p pre ids depth later h hdepth
  obtain ⟨c, ids, rfl, -⟩ := h.shows.exists_cons
  have hn := h.first
  obtain ⟨gone, ids', rfl, hmoves, hahead, hremoved⟩ := h.consume ht₀
  obtain ⟨t', ids'', hmoves', hshows, hrun⟩ := ih depth later hahead fun d hd =>
    hdepth d (List.mem_cons_of_mem _ (List.mem_append_right _ hd))
  refine ⟨t', ids'', hmoves.trans hmoves', hshows, ?_⟩
  rw [h.commandsAmong_of_command (isCommand_of_isMarker hm), commandsAmong_append, List.cons_append, runAll,
    h.isAttached ht₀, ← hn.isMarker_eq, hm, List.append_assoc, ← hrun]
  refine runAll_of_removed (fun d hd => hremoved depth d ?_) _
  rw [commandsAmong]
  exact List.mem_append_right _ hd

/-- A command that is no marker: what is behind it is cleared, then it is executed. -/
theorem Ahead.runAll_cons {t : Tree} {p c depth : Nat} {pre ids : List Nat} {ns : List Node} (later : List Nat)
    (h : Ahead t₀ t p pre (c :: ids) (n :: ns)) (ht₀ : t₀.Sound) (hn : n.kind.isCommand = true)
    (hm : n.isMarker = false) :
    runAll rules (t₀.commandsAmong depth (c :: ids) ++ later) t s =
      match (t.stripMarkersAfter c).runStep rules c s with
      | .error e => ⟨t.stripMarkersAfter c, s, .failed e⟩
      | .ok (t, u) =>
        let t := t.putWarnings c u.warnings
        if u.halted then ⟨t.putHalt c, u.last, .halted⟩
        else runAll rules (t₀.commandsAmong depth ids ++ later) t u.next := by
  rw [h.commandsAmong_of_command hn, List.cons_append, runAll, h.isAttached ht₀, ← h.first.isMarker_eq, hm]
  rfl

/-- A command has been executed, and its warnings stand behind it. -/
theorem Ahead.execute {t : Tree} {p c : Nat} {pre ids : List Nat} {ns : List Node} {m : Node} {u : ExecState}
    (h : Ahead t₀ t p pre (c :: ids) (n :: ns)) (ht₀ : t₀.Sound) (hr : Evomark.runStep rules n s = .ok (m, u)) :
    ∃ t' gone ids' new, ids = gone ++ ids' ∧ (t.stripMarkersAfter c).runStep rules c s = .ok (t', u) ∧
      let t₂ := t'.putWarnings c u.warnings
      Moves t₀ t t₂ p (c :: gone) (pre ++ c :: (new ++ ids')) ∧
      Ahead t₀ t₂ p (pre ++ c :: new) ids' (stripMarkers ns) ∧
      t₂.ShowsAll (c :: new) (m :: warningMarkers u.warnings) ∧
      ∀ depth, ∀ d ∈ t₀.commandsAmong depth gone, t₂.Removed d := by
  obtain ⟨gone, ids', rfl, hmoves, hahead, hremoved⟩ := h.strip ht₀
  have ht := hahead.edits.sound ht₀
  have hstep := hahead.runStep ht₀ rules s
  rw [hr] at hstep
  obtain ⟨t', hrun, hreworks, hm⟩ := hstep
  obtain ⟨hmoves', hahead'⟩ := hahead.moves_of_reworks ht₀
    (hreworks.mono fun _ hq => (hahead.mem_descendants_iff ht₀ List.mem_cons_self).1 hq)
  have ht' := hahead'.edits.sound ht₀
  have hchildren : t'.children p = pre ++ c :: ids' := hahead'.children.trans (List.append_assoc _ _ _)
  have hmem := mem_of_siblings hchildren
  obtain ⟨new, hput⟩ := put_warnings ht' hchildren u.warnings
  refine ⟨t', gone, ids', new, rfl, hrun, ?_, ?_, ?_, fun depth d hd => ?_⟩
  · have hids : ∀ d ∈ gone ++ [c] ++ [], d ∈ c :: gone := by simp [or_comm]
    have hall := ((hmoves.trans hmoves').trans hput.moves).mono hids
    rwa [List.append_assoc] at hall
  · have hnext := hahead'.put ht₀ (lt_of_mem_children hmem) hput
    rwa [List.append_assoc] at hnext
  · refine showsAll_cons.2 ⟨showsAll_singleton.1 (hput.keeps ht' ?_ (showsAll_singleton.2 hm)), hput.shows⟩
    exact fun d hd => List.mem_singleton.1 hd ▸ hmem
  · exact hput.reworks.edits.removed ht' (hreworks.edits.removed ht (hremoved depth d hd))

theorem follows_failed (ht₀ : t₀.Sound) {e : ExecError} (hn : n.kind.isCommand = true)
    (hm : n.isMarker = false) (hr : Evomark.runStep rules n s = .error e) :
    t₀.Follows rules (n :: rest) s ⟨n :: stripMarkers rest, s, .failed e⟩ := by
  intro t p pre ids depth later h _
  obtain ⟨c, ids, rfl, -⟩ := h.shows.exists_cons
  rw [h.runAll_cons later ht₀ hn hm]
  obtain ⟨gone, ids', rfl, hmoves, hahead, -⟩ := h.strip ht₀
  have hstep := hahead.runStep ht₀ rules s
  rw [hr] at hstep
  refine ⟨t.stripMarkersAfter c, c :: ids', hmoves.mono fun d hd => ?_, hahead.shows, ?_⟩
  · exact List.mem_cons_of_mem _ (List.mem_append_left _ hd)
  · rw [show (t.stripMarkersAfter c).runStep rules c s = .error e from hstep]
    rfl

theorem follows_halted (ht₀ : t₀.Sound) {m : Node} {u : ExecState} (hn : n.kind.isCommand = true)
    (hm : n.isMarker = false) (hr : Evomark.runStep rules n s = .ok (m, u)) (hu : u.halted = true) :
    t₀.Follows rules (n :: rest) s ⟨m :: behindHalt u.warnings rest, u.last, .halted⟩ := by
  intro t p pre ids depth later h _
  obtain ⟨c, ids, rfl, -⟩ := h.shows.exists_cons
  rw [h.runAll_cons later ht₀ hn hm]
  obtain ⟨t', gone, ids', new, rfl, hstep, hmoves, hahead, hshows, -⟩ := h.execute ht₀ hr
  simp only [hstep, hu, if_true]
  have ht₂ := hahead.edits.sound ht₀
  generalize t'.putWarnings c u.warnings = t₂ at *
  have hchildren : t₂.children p = pre ++ c :: (new ++ ids') := hmoves.relists.children_eq h.lt_size
  obtain ⟨hm, hwarnings⟩ := showsAll_cons.1 hshows
  have hbehind := hwarnings.append hahead.shows
  obtain ⟨halt, hput⟩ := put_halt ht₂ hchildren hbehind
  have hkept := hput.keeps ht₂ (fun d hd => hchildren ▸ List.mem_append_right _ hd)
    (showsAll_cons.2 ⟨hm, hbehind⟩)
  refine ⟨t₂.putHalt c, c :: (halt ++ (new ++ ids')), ?_, ?_, rfl⟩
  · have hall := hmoves.trans hput.moves
    rw [List.append_assoc] at hall
    exact hall.mono fun d hd => by
      simp only [List.mem_cons, List.mem_append, List.not_mem_nil] at hd ⊢
      tauto
  · refine showsAll_cons.2 ⟨(showsAll_cons.1 hkept).1, ?_⟩
    have hall := hput.shows.append (showsAll_cons.1 hkept).2
    unfold behindHalt
    simp only
    split at hall <;> rename_i hmarked
    · rwa [if_pos hmarked]
    · rwa [if_neg hmarked]

theorem follows_executed (ht₀ : t₀.Sound) {m : Node} {u : ExecState} (hn : n.kind.isCommand = true)
    (hm : n.isMarker = false) (hr : Evomark.runStep rules n s = .ok (m, u)) (hu : u.halted = false)
    (ih : t₀.Follows rules (stripMarkers rest) u.next (runNodes rules rest u.next)) :
    t₀.Follows rules (n :: rest) s
      ⟨m :: (warningMarkers u.warnings ++ (runNodes rules rest u.next).nodes),
        (runNodes rules rest u.next).state, (runNodes rules rest u.next).outcome⟩ := by
  intro t p pre ids depth later h hdepth
  obtain ⟨c, ids, rfl, -⟩ := h.shows.exists_cons
  rw [h.runAll_cons later ht₀ hn hm]
  obtain ⟨t', gone, ids', new, rfl, hstep, hmoves, hahead, hshows, hremoved⟩ := h.execute ht₀ hr
  simp only [hstep, hu, Bool.false_eq_true, if_false]
  rw [commandsAmong_append, List.append_assoc, runAll_of_removed (hremoved depth)]
  obtain ⟨t₃, ids'', hmoves₃, hshows₃, hrun₃⟩ := ih depth later hahead fun d hd =>
    hdepth d (List.mem_cons_of_mem _ (List.mem_append_right _ hd))
  have hkept := hahead.keeps_before ht₀ hmoves₃.reworks hshows
  refine ⟨t₃, c :: (new ++ ids''), ?_, ?_, hrun₃⟩
  · have hall := hmoves.trans hmoves₃
    rwa [List.append_assoc] at hall
  · exact showsAll_cons.2 ⟨(showsAll_cons.1 hkept).1, (showsAll_cons.1 hkept).2.append hshows₃⟩

/-- The nodes below one that is no command are worked on. -/
theorem Ahead.walk {t : Tree} {p c depth : Nat} {pre ids : List Nat} {label : Label} {children ns : List Node}
    {w : Walk} (h : Ahead t₀ t p pre (c :: ids) (⟨label, children⟩ :: ns)) (ht₀ : t₀.Sound)
    (hbelow : t₀.Follows rules children s w) (hdepth : t₀.slots.size ≤ c + (depth + 1)) (later : List Nat) :
    ∃ t', Moves t₀ t t' p [c] (pre ++ c :: ids) ∧ Ahead t₀ t' p (pre ++ [c]) ids ns ∧
      t'.Shows c ⟨label, w.nodes⟩ ∧
      runAll rules (t₀.commandsAmong depth (t₀.children c) ++ later) t s = resume rules later t' w := by
  have hc := h.isAttached ht₀
  obtain ⟨t', inner, hmoves, hshows, hrun⟩ := hbelow depth later (h.inside ht₀) fun d hd => by
    have := (ht₀.child hd).1
    omega
  have hreworks : t.Reworks t' (· ∈ t₀.descendants c) := hmoves.reworks.mono fun _ htouched => by
    obtain rfl | ⟨d, hd, hq⟩ := htouched
    · exact mem_below_self _ _
    · exact ht₀.mem_descendants_of_child hd hq
  obtain ⟨hmoves', hahead⟩ := h.moves_of_reworks ht₀ hreworks
  exact ⟨t', hmoves', hahead, hmoves.relists.shows (lt_of_isAttached hc) h.first hshows, hrun⟩

theorem follows_inside (ht₀ : t₀.Sound) {label : Label} {children : List Node} {w : Walk}
    (hn : label.kind.isCommand = false) (hw : w.outcome = .completed) (hbelow : t₀.Follows rules children s w)
    (ih : t₀.Follows rules rest w.state (runNodes rules rest w.state)) :
    t₀.Follows rules (⟨label, children⟩ :: rest) s
      ⟨⟨label, w.nodes⟩ :: (runNodes rules rest w.state).nodes, (runNodes rules rest w.state).state,
        (runNodes rules rest w.state).outcome⟩ := by
  intro t p pre ids depth later h hdepth
  obtain ⟨c, ids, rfl, -⟩ := h.shows.exists_cons
  obtain ⟨hc, hids⟩ := List.forall_mem_cons.1 hdepth
  obtain ⟨d, rfl, hcommands⟩ := h.commandsAmong_of_inside hn ht₀ hc
  obtain ⟨t', hmoves, hahead, hshows, hrun⟩ := h.walk ht₀ hbelow hc (t₀.commandsAmong (d + 1) ids ++ later)
  obtain ⟨t₂, ids', hmoves₂, hshows₂, hrun₂⟩ := ih (d + 1) later hahead hids
  have hkept := hahead.keeps_before ht₀ hmoves₂.reworks (showsAll_singleton.2 hshows)
  refine ⟨t₂, c :: ids', ?_, showsAll_cons.2 ⟨showsAll_singleton.1 hkept, hshows₂⟩, ?_⟩
  · have hall := hmoves.trans hmoves₂
    rwa [List.append_assoc] at hall
  · rw [hcommands, List.append_assoc, hrun, resume, hw]
    exact hrun₂

theorem follows_ended (ht₀ : t₀.Sound) {label : Label} {children : List Node} {w : Walk}
    (hn : label.kind.isCommand = false) (hw : w.outcome ≠ .completed)
    (hbelow : t₀.Follows rules children s w) :
    t₀.Follows rules (⟨label, children⟩ :: rest) s ⟨⟨label, w.nodes⟩ :: rest, w.state, w.outcome⟩ := by
  intro t p pre ids depth later h hdepth
  obtain ⟨c, ids, rfl, -⟩ := h.shows.exists_cons
  have hc := hdepth c List.mem_cons_self
  obtain ⟨d, rfl, hcommands⟩ := h.commandsAmong_of_inside hn ht₀ hc
  obtain ⟨t', hmoves, hahead, hshows, hrun⟩ := h.walk ht₀ hbelow hc (t₀.commandsAmong (d + 1) ids ++ later)
  refine ⟨t', c :: ids, hmoves.mono fun d hd => ?_, showsAll_cons.2 ⟨hshows, hahead.shows⟩, ?_⟩
  · exact List.mem_singleton.1 hd ▸ List.mem_cons_self
  · rw [hcommands, List.append_assoc, hrun, resume, resume]
    cases ho : w.outcome with
    | completed => exact absurd ho hw
    | halted | failed => rfl

/-- A pass over a tree makes of nodes what a walk over them makes. Behind a command that has been executed the
walk goes on with the nodes that are left when the markers behind it have been taken away. -/
theorem follows_runNodes (ht₀ : t₀.Sound) (rules : Table ExecRule) (ns : List Node) (s : ExecState) :
    t₀.Follows rules ns s (runNodes rules ns s) := by
  have hno {label : Label} {children : List Node} (hn : label.kind.isCommand = false) :
      (Node.mk label children).isMarker = false :=
    Bool.eq_false_iff.2 fun hm => Bool.false_ne_true (hn.symm.trans (isCommand_of_isMarker hm))
  have hboth := runNodes_induct rules
    (motive := fun ns s w => t₀.Follows rules ns s w ∧ t₀.Follows rules (stripMarkers ns) s w)
    ?nil ?marker ?failed ?halted ?executed ?inside ?ended ns s
  case nil => exact fun s => ⟨follows_nil t₀ rules s, follows_nil t₀ rules s⟩
  case marker =>
    intro n rest s hm ih
    rw [stripMarkers_of_marker hm]
    exact ⟨follows_marker ht₀ hm ih.1, ih.2⟩
  case failed =>
    intro n rest s e hn hm hr
    rw [stripMarkers_of_not_marker hm, and_self]
    exact follows_failed ht₀ hn hm hr
  case halted =>
    intro n rest s m u hn hm hr hu
    rw [stripMarkers_of_not_marker hm, and_self]
    exact follows_halted ht₀ hn hm hr hu
  case executed =>
    intro n rest s m u hn hm hr hu ih
    rw [stripMarkers_of_not_marker hm, and_self]
    exact follows_executed ht₀ hn hm hr hu ih.2
  case inside =>
    intro label children rest s w hn _ hw hbelow ih
    rw [stripMarkers_of_not_marker (hno hn), and_self]
    exact follows_inside ht₀ hn hw hbelow.1 ih.1
  case ended =>
    intro label children rest s w hn _ hw hbelow
    rw [stripMarkers_of_not_marker (hno hn), and_self]
    exact follows_ended ht₀ hn hw hbelow.1
  exact hboth.1

end

section

variable {t : Tree}

/-- A pass over a tree consists of edits at attached nodes, and makes of what the tree shows what `exec` makes of
it, with the same state and outcome. -/
theorem Sound.pass (ht : t.Sound) {document : Node} (hn : t.Shows root document) (rules : Table ExecRule)
    (ctx : Context) :
    t.Edits (t.pass rules ctx).tree ∧ (t.pass rules ctx).tree.Shows root (exec rules document ctx).document ∧
      (t.pass rules ctx).state = (exec rules document ctx).state ∧
      (t.pass rules ctx).outcome = (exec rules document ctx).outcome := by
  obtain ⟨label, children⟩ := document
  have hlt := lt_of_isAttached ht.root_attached
  obtain ⟨d, hd⟩ : ∃ d, t.slots.size = d + 1 := ⟨t.slots.size - 1, by omega⟩
  have hcommands : t.commands = t.commandsAmong d (t.children root) ++ [] := by
    rw [commands, hd, commandsBelow, List.append_nil]
  have hahead : Ahead t t root [] (t.children root) children :=
    ⟨.refl, rfl, fun c hc => ⟨hc, .refl t c⟩, hn.children⟩
  obtain ⟨t', ids, hmoves, hshows, hrun⟩ := follows_runNodes ht rules children (.ofContext ctx) d [] hahead
    fun c hc => by
      have := (ht.child hc).1
      omega
  have hpass : t.pass rules ctx = ⟨t', (runNodes rules children (.ofContext ctx)).state,
      (runNodes rules children (.ofContext ctx)).outcome⟩ := by
    rw [Tree.pass, hcommands, hrun, resume]
    split <;> rename_i ho
    · rw [runAll, ho]
    · rfl
  rw [hpass]
  exact ⟨hmoves.reworks.edits, hmoves.relists.shows hlt hn hshows, rfl, rfl⟩

theorem Sound.shows_document (ht : t.Sound) : t.Shows root t.document :=
  ht.shows_subtreeTo _ (Nat.le_add_left _ _)

theorem Shows.unslotted_document (ht : t.Sound) {document : Node} (hn : t.Shows root document) :
    t.document.unslotted = document.unslotted :=
  hn.unslotted_subtreeTo ht _ (Nat.le_add_left _ _)

end

end Evomark.Tree
