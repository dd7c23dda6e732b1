import Evomark.Proofs.Document.Reprint
import Evomark.Proofs.Exec.Places
/-!
# Passes over what is read back

What is read back of a document after a pass has neither the results nor the separators of the
markers that the pass has left. A pass over it with the same context still gives what the first pass
gave (`runNodes_rereadAll`, `exec_of_reread`), provided that the document was read from its own text before the first
pass: `rereadAll` leaves its nodes as they are.
-/

namespace Evomark

open Node Markup

mutual

/-- The commands of the node that a pass meets have the property, and it meets no literal body. -/
def Node.Meets (p : Node → Prop) : Node → Prop
  | ⟨label, children⟩ =>
    if label.kind.isCommand = true then p ⟨label, children⟩ else label.kind ≠ .body ∧ MeetsAll p children

/-- `Node.Meets` of each of the nodes. -/
def MeetsAll (p : Node → Prop) : List Node → Prop
  | [] => True
  | n :: rest => n.Meets p ∧ MeetsAll p rest

end

theorem Node.Meets.inside {p : Node → Prop} {label : Label} {children : List Node}
    (h : Node.Meets p ⟨label, children⟩) (hn : label.kind.isCommand = false) :
    label.kind ≠ .body ∧ MeetsAll p children := by
  rw [Node.Meets, if_neg (by rw [hn]; decide)] at h
  exact h

theorem Node.Meets.command {p : Node → Prop} {n : Node} (h : n.Meets p) (hn : n.kind.isCommand = true) :
    p n := by
  obtain ⟨label, children⟩ := n
  rwa [Node.Meets, if_pos (show label.kind.isCommand = true from hn)] at h

theorem MeetsAll.afterMarker {p : Node → Prop} {rest : List Node} (h : MeetsAll p rest) (n : Node) :
    MeetsAll p (afterMarker n rest) := by
  cases rest with
  | nil => trivial
  | cons sep more =>
    rw [Evomark.afterMarker]
    split
    · exact h.2
    · exact h

/-! ## Nodes read back as they are -/

theorem length_rereadAll_le (ns : List Node) : (rereadAll ns).length ≤ ns.length := by
  induction ns with
  | nil => exact Nat.le_refl _
  | cons n rest ih =>
    rw [rereadAll]
    split
    · exact Nat.le_succ_of_le ih
    · exact Nat.succ_le_succ ih

theorem length_unplacedAll (ns : List Node) : (unplacedAll ns).length = ns.length := by
  rw [unplacedAll_eq, List.length_map]

/-- The first of some nodes that are read back as they are. -/
theorem reread_of_rereadAll {n : Node} {rest : List Node}
    (h : rereadAll (n :: rest) = unplacedAll (n :: rest)) :
    (n.kind ≠ .sep ∧ n.kind ≠ .literal) ∧ n.reread = n.unplaced ∧ rereadAll rest = unplacedAll rest := by
  have hk : ¬(n.kind = .sep ∨ n.kind = .literal) := by
    intro hk
    rw [rereadAll, if_pos hk] at h
    have hlength := congrArg List.length h
    rw [length_unplacedAll, List.length_cons] at hlength
    have := length_rereadAll_le rest
    omega
  rw [rereadAll, if_neg hk, unplacedAll] at h
  exact ⟨not_or.1 hk, List.cons.inj h⟩

theorem rereadAll_afterMarker {n : Node} {rest : List Node} (h : rereadAll rest = unplacedAll rest) :
    rereadAll (afterMarker n rest) = unplacedAll (afterMarker n rest) := by
  cases rest with
  | nil => rfl
  | cons sep more =>
    rw [afterMarker]
    split
    · exact (reread_of_rereadAll h).2.2
    · exact h

theorem rereadAll_stripMarkers {ns : List Node} (h : rereadAll ns = unplacedAll ns) :
    rereadAll (stripMarkers ns) = unplacedAll (stripMarkers ns) := by
  fun_induction stripMarkers ns with
  | case1 => rfl
  | case2 => rfl
  | case3 n hm sep more hs ih => exact ih (reread_of_rereadAll (reread_of_rereadAll h).2.2).2.2
  | case4 n hm sep more hs ih => exact ih (reread_of_rereadAll h).2.2
  | case5 => exact h

/-! ## Results and separators are not read back -/

theorem not_sep_of_mem_rereadAll {ns : List Node} : ∀ m ∈ rereadAll ns, m.kind ≠ .sep := by
  induction ns with
  | nil => exact fun _ h => absurd h List.not_mem_nil
  | cons n rest ih =>
    rw [rereadAll]
    split
    · exact ih
    · rename_i hk
      refine List.forall_mem_cons.2 ⟨?_, ih⟩
      rw [kind_reread]
      exact fun h => hk (.inl h)

/-- Behind a marker that has been read back no separator belongs to it. -/
theorem afterMarker_rereadAll (n : Node) (ns : List Node) :
    afterMarker n (rereadAll ns) = rereadAll ns := by
  cases hns : rereadAll ns with
  | nil => rfl
  | cons sep more =>
    have hsep : sep.kind ≠ .sep := not_sep_of_mem_rereadAll sep (by rw [hns]; exact .head _)
    rw [afterMarker, if_neg]
    simp [isMarkerSep, hsep]

theorem rereadAll_filter (ns : List Node) :
    rereadAll (ns.filter fun n => n.kind != .literal) = rereadAll ns := by
  induction ns with
  | nil => rfl
  | cons n rest ih =>
    by_cases hk : n.kind = .literal
    · rw [List.filter_cons_of_neg (by simp [hk]), ih, rereadAll, if_pos (.inr hk)]
    · rw [List.filter_cons_of_pos (by simp [hk]), rereadAll, rereadAll, ih]

/-- A step changes nothing that is read back. -/
theorem reread_of_runStep {rules : Table ExecRule} {n m : Node} {s t : ExecState}
    (hn : n.kind.isCommand = true) (hr : runStep rules n s = .ok (m, t)) : m.reread = n.reread := by
  obtain ⟨hl, hp⟩ := plain_of_runStep hn hr
  have hplain : ∀ k : Node, k.kind.isCommand = true → k.plain.reread = k.reread := by
    intro k hk
    by_cases hv : k.kind = .varAssign
    · rw [plain_of_varAssign hv]
    · obtain ⟨label, children⟩ := k
      rw [plain_of_ne hv, withChildren, reread, reread, rereadAll_filter]
      have hk : label.kind.isCommand = true := hk
      cases hkind : label.kind <;> first | rfl | (rw [hkind] at hk; exact absurd hk (by decide))
  rw [← hplain m ((isCommand_of_label hl).trans hn), hp, hplain n hn]

theorem rereadAll_warningMarkers (warnings : List String) (ns : List Node) :
    rereadAll (warningMarkers warnings ++ ns) = rereadAll ns ∨
      ∃ marker, marker.isMarker = true ∧
        rereadAll (warningMarkers warnings ++ ns) = marker :: rereadAll ns := by
  unfold warningMarkers
  split
  · exact .inl rfl
  · exact .inr ⟨_, by rfl, rfl⟩

theorem runNodes_rereadAll_warningMarkers (rules : Table ExecRule) (warnings : List String)
    (ns : List Node) (s : ExecState) :
    runNodes rules (rereadAll (warningMarkers warnings ++ ns)) s = runNodes rules (rereadAll ns) s := by
  obtain h | ⟨marker, hm, h⟩ := rereadAll_warningMarkers warnings ns
  · rw [h]
  · rw [h, runNodes_of_marker hm, afterMarker_rereadAll]

theorem stripMarkers_rereadAll_warningMarkers (warnings : List String) (ns : List Node) :
    stripMarkers (rereadAll (warningMarkers warnings ++ ns)) = stripMarkers (rereadAll ns) := by
  obtain h | ⟨marker, hm, h⟩ := rereadAll_warningMarkers warnings ns
  · rw [h]
  · rw [h, stripMarkers_of_marker hm, afterMarker_rereadAll]

/-- What is read back of the end of a pass has nothing but markers in front of what stood there. -/
theorem stripMarkers_rereadAll_behindHalt (warnings : List String) {ns : List Node}
    (h : rereadAll ns = unplacedAll ns) :
    stripMarkers (rereadAll (behindHalt warnings ns)) = unplacedAll (stripMarkers ns) := by
  have hbehind : stripMarkers (rereadAll (warningMarkers warnings ++ stripMarkers ns)) =
      unplacedAll (stripMarkers ns) := by
    rw [stripMarkers_rereadAll_warningMarkers, rereadAll_stripMarkers h, stripMarkers_unplacedAll,
      stripMarkers_stripMarkers]
  unfold behindHalt
  simp only
  split
  · exact hbehind
  · have hhalt : rereadAll (haltMarker :: (warningMarkers warnings ++ stripMarkers ns)) =
        haltMarker :: rereadAll (warningMarkers warnings ++ stripMarkers ns) := rfl
    rw [hhalt, stripMarkers_of_marker rfl, afterMarker_rereadAll, hbehind]

/-! ## A whole pass -/

/-- A node that is not executed itself, read back with what a pass has left below it. -/
theorem reread_inside {label : Label} {children : List Node} (hb : label.kind ≠ .body)
    (h : Node.reread ⟨label, children⟩ = Node.unplaced ⟨label, children⟩) :
    (children = [] ∧ Node.reread ⟨label, []⟩ = Node.unplaced ⟨label, []⟩) ∨
      (rereadAll children = unplacedAll children ∧
        ∀ ns, Node.reread ⟨label, ns⟩ = ⟨label.unplaced, rereadAll ns⟩) := by
  by_cases hp : label.kind = .funcParam
  · left
    have hchildren : children = [] := by
      have hlength := congrArg (fun n : Node => n.children.length) h
      rw [reread, hp] at hlength
      simp only [Node.leaf, unplaced, length_unplacedAll, List.length_nil] at hlength
      exact List.eq_nil_of_length_eq_zero hlength.symm
    subst hchildren
    exact ⟨rfl, h⟩
  · right
    have hreread : ∀ ns, Node.reread ⟨label, ns⟩ = ⟨label.unplaced, rereadAll ns⟩ := by
      intro ns
      rw [reread]
      cases hkind : label.kind <;> first | rfl | exact absurd hkind hp | exact absurd hkind hb
    refine ⟨?_, hreread⟩
    rw [hreread] at h
    exact congrArg Node.children h

/-- A pass over what is read back of the nodes that a pass has left gives what that pass gave. -/
theorem runNodes_rereadAll (rules : Table ExecRule) {p : Node → Prop} (ns : List Node) (s : ExecState)
    (hp : MeetsAll p ns) (h : rereadAll ns = unplacedAll ns) :
    runNodes rules (rereadAll (runNodes rules ns s).nodes) s = (runNodes rules ns s).unplaced := by
  revert hp h
  refine runNodes_induct rules (motive := fun ns s w => MeetsAll p ns → rereadAll ns = unplacedAll ns →
      runNodes rules (rereadAll w.nodes) s = w.unplaced)
    ?nil ?marker ?failed ?halted ?executed ?inside ?ended ns s
  case nil => exact fun _ _ _ => rfl
  case marker =>
    intro n rest s hm ih hp h
    exact ih (hp.2.afterMarker n) (rereadAll_afterMarker (reread_of_rereadAll h).2.2)
  case failed =>
    intro n rest s e hn hm hr hp h
    obtain ⟨hk, hnode, hrest⟩ := reread_of_rereadAll h
    rw [rereadAll_cons hk, hnode, runNodes_of_error ((isCommand_unplaced n).trans hn)
      ((isMarker_unplaced n).trans hm) (runStep_unplaced_error hr), rereadAll_stripMarkers hrest,
      stripMarkers_unplacedAll, stripMarkers_stripMarkers]
    rfl
  case halted =>
    intro n rest s m t hn hm hr ht hp h
    obtain ⟨hk, hnode, hrest⟩ := reread_of_rereadAll h
    have hl := (plain_of_runStep hn hr).1
    have hkm : m.kind ≠ .sep ∧ m.kind ≠ .literal := by rwa [Node.kind, hl]
    rw [rereadAll_cons hkm, reread_of_runStep hn hr, hnode,
      runNodes_of_halted ((isCommand_unplaced n).trans hn) ((isMarker_unplaced n).trans hm)
        (runStep_unplaced_ok hr) ht,
      behindHalt_unplacedAll _ (stripMarkers_rereadAll_behindHalt t.warnings hrest)]
    rfl
  case executed =>
    intro n rest s m t hn hm hr ht ih hp h
    obtain ⟨hk, hnode, hrest⟩ := reread_of_rereadAll h
    have hl := (plain_of_runStep hn hr).1
    have hkm : m.kind ≠ .sep ∧ m.kind ≠ .literal := by rwa [Node.kind, hl]
    rw [rereadAll_cons hkm, reread_of_runStep hn hr, hnode,
      runNodes_of_ok ((isCommand_unplaced n).trans hn) ((isMarker_unplaced n).trans hm)
        (runStep_unplaced_ok hr) ht,
      runNodes_rereadAll_warningMarkers, ih hp.2 hrest]
    simp only [Walk.unplaced, unplacedAll, unplacedAll_append, unplacedAll_warningMarkers]
  case inside =>
    intro label children rest s w hn hw ho ih ihrest hp h
    obtain ⟨hk, hnode, hrest⟩ := reread_of_rereadAll h
    obtain ⟨hb, hchildren⟩ := hp.1.inside hn
    have hn' : label.unplaced.kind.isCommand = false := hn
    have hkw : (Node.mk label w.nodes).kind ≠ .sep ∧ (Node.mk label w.nodes).kind ≠ .literal := hk
    simp only [rereadAll_cons hkw]
    obtain ⟨rfl, hleaf⟩ | ⟨hsame, hreread⟩ := reread_inside hb hnode
    · rw [runNodes] at hw
      subst hw
      rw [hleaf, unplaced, runNodes_of_completed hn' rfl]
      simp only [unplacedAll, runNodes, ihrest hp.2 hrest]
      rfl
    · have ih := ih hchildren hsame
      have hstate : (runNodes rules (rereadAll w.nodes) s).state = w.state := by rw [ih]; rfl
      rw [hreread, runNodes_of_completed hn' (by rw [ih]; exact ho), hstate, ih, ihrest hp.2 hrest]
      rfl
  case ended =>
    intro label children rest s w hn hw ho ih hp h
    obtain ⟨hk, hnode, hrest⟩ := reread_of_rereadAll h
    obtain ⟨hb, hchildren⟩ := hp.1.inside hn
    have hn' : label.unplaced.kind.isCommand = false := hn
    have hkw : (Node.mk label w.nodes).kind ≠ .sep ∧ (Node.mk label w.nodes).kind ≠ .literal := hk
    simp only [rereadAll_cons hkw]
    obtain ⟨rfl, hleaf⟩ | ⟨hsame, hreread⟩ := reread_inside hb hnode
    · rw [runNodes] at hw
      subst hw
      exact absurd rfl ho
    · have ih := ih hchildren hsame
      rw [hreread, runNodes_of_ended hn' (by rw [ih]; exact ho), ih, hrest]
      rfl

/-- A pass over a document that is read back of one after a pass. -/
theorem exec_of_reread (rules : Table ExecRule) {p : Node → Prop} {document again : Node} (ctx : Context)
    (hp : MeetsAll p document.children) (h : rereadAll document.children = unplacedAll document.children)
    (hagain : unplacedAll again.children = rereadAll (exec rules document ctx).document.children) :
    (exec rules again ctx).outcome = (exec rules document ctx).outcome ∧
      (exec rules again ctx).state = (exec rules document ctx).state ∧
      unplacedAll (exec rules again ctx).document.children =
        unplacedAll (exec rules document ctx).document.children := by
  obtain ⟨label, children⟩ := document
  obtain ⟨label', children'⟩ := again
  have hwalk : (runNodes rules children' (.ofContext ctx)).unplaced =
      (runNodes rules children (.ofContext ctx)).unplaced := by
    rw [← runNodes_unplacedAll, show unplacedAll children' = _ from hagain]
    exact runNodes_rereadAll rules children (.ofContext ctx) hp h
  obtain ⟨hnodes, hstate, hout⟩ := Walk.mk.inj hwalk
  exact ⟨hout, hstate, hnodes⟩

end Evomark
