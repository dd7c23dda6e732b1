import Evomark.Exec.TreePass
import Evomark.Proofs.Document.Reworks
import Evomark.Proofs.Exec.Places
/-!
# A step in a tree

A step at a slot of a tree does what a step does to the node that stands there (`Sound.runStep`): it
fails with the same error, or it ends in the same state, and what it leaves is what then stands at the
slot. Nothing is touched but what is below the slot.
-/

namespace Evomark

namespace Node

mutual

theorem unplaced_unslotted : ∀ n : Node, n.unslotted.unplaced = n.unplaced
  | ⟨label, children⟩ => by
    rw [unslotted, unplaced, unplaced, unplacedAll_unslottedAll children]
    rfl

theorem unplacedAll_unslottedAll : ∀ ns : List Node, unplacedAll (unslottedAll ns) = unplacedAll ns
  | [] => by rw [unslottedAll]
  | n :: rest => by
    rw [unslottedAll, unplacedAll, unplacedAll, unplaced_unslotted n, unplacedAll_unslottedAll rest]

end

end Node

namespace Tree

/-- What became of the node at `id` when it was executed: a failure is the same in the tree, and a step that
leaves `m` leaves `m` standing at `id`. -/
def StepsTo (t : Tree) (id : Nat) :
    Except ExecError (Node × ExecState) → Except ExecError (Tree × ExecState) → Prop
  | .error e, r => r = .error e
  | .ok (m, u), r => ∃ t', r = .ok (t', u) ∧ t.Reworks t' (· ∈ t.descendants id) ∧ t'.Shows id m

section

variable {t : Tree} {id : Nat} {n : Node}

/-- Nothing is touched. -/
theorem StepsTo.same (hn : t.Shows id n) (u : ExecState) : t.StepsTo id (.ok (n, u)) (.ok (t, u)) :=
  ⟨t, rfl, (Reworks.refl t).mono fun _ h => h.elim, hn⟩

theorem Sound.sameText (ht : t.Sound) (hn : t.Shows id n) : ExecRule.SameText n (t.subtree id) := by
  have hunslotted : (t.subtree id).unslotted = n.unslotted :=
    hn.unslotted_subtreeTo ht _ (Nat.le_add_left _ _)
  have hunplaced : (t.subtree id).unplaced = n.unplaced := by
    rw [← Node.unplaced_unslotted, hunslotted, Node.unplaced_unslotted]
  have hn := sameText_unplaced n
  have hsubtree := sameText_unplaced (t.subtree id)
  rw [hunplaced] at hsubtree
  exact ⟨fun s => (hsubtree.synthesize s).symm.trans (hn.synthesize s),
    hsubtree.usedNames.symm.trans hn.usedNames⟩

/-! ## Literals -/

/-- The literals of a node give way to another. -/
theorem Sound.replaceLiterals (ht : t.Sound) (hid : t.isAttached id = true) (hn : t.Shows id n)
    (literal : Label) :
    let t' := ((t.removeChildren id .literal).pushChild id literal).2
    t.Reworks t' (· ∈ t.descendants id) ∧
      t'.Shows id (n.withChildren (n.children.filter (·.kind != .literal) ++ [.leaf literal])) := by
  obtain ⟨hremoved, hshows⟩ := shows_removeChildren ht hid hn .literal
  have ht' := hremoved.edits.sound ht
  have hid' : (t.removeChildren id .literal).isAttached id = true := by
    rw [(pruned_removeChildren ht (lt_of_isAttached hid) .literal).relists.isAttached_eq, hid]
  refine ⟨(hremoved.trans (reworks_pushChild hid' literal)).mono fun _ htouched => ?_,
    shows_pushChild ht' hid' hshows literal⟩
  exact htouched.elim (fun h => h) fun heq => heq ▸ mem_below_self _ _

/-! ## Steps -/

theorem Sound.runUse (ht : t.Sound) (hid : t.isAttached id = true) (hn : t.Shows id n) (s : ExecState) :
    t.StepsTo id (Evomark.runUse n s) (t.runUse id s) := by
  rw [Evomark.runUse, Tree.runUse, hn.content_eq]
  cases s.bound? (t.label id).content with
  | none => rfl
  | some host =>
    simp only
    generalize (s.look host).2.lookText host = found
    obtain ⟨text, u⟩ := found
    cases text with
    | none => exact ⟨_, rfl, shows_removeChildren ht hid hn .literal⟩
    | some text =>
      cases (s.look host).1 with
      | none => exact ⟨_, rfl, shows_removeChildren ht hid hn .literal⟩
      | some value => exact ⟨_, rfl, ht.replaceLiterals hid hn _⟩

/-- In an assignment a rule only reads its command. -/
theorem Sound.runRule_some (ht : t.Sound) (hn : t.Shows id n) (rule : ExecRule) (host : Host) (s : ExecState) :
    (∃ e, rule.run n (some host) s = .error e ∧ t.runRule rule id (some host) s = .error e) ∨
    (∃ g u, rule.run n (some host) s = .ok ⟨n, g, u⟩ ∧ t.runRule rule id (some host) s = .ok (t, g, u)) := by
  have hrun : t.runRule rule id (some host) s = do
      let done ← rule.run (t.subtree id) (some host) s
      return (t, done.host, done.state) := by
    cases rule <;> rfl
  rw [hrun]
  obtain ⟨e, he, he'⟩ | ⟨g, u, he, he'⟩ | ⟨-, hno, -⟩ := rule.run_cases (some host) s (ht.sameText hn)
  · exact .inl ⟨e, he, by rw [he']; rfl⟩
  · exact .inr ⟨g, u, he, by rw [he']; rfl⟩
  · cases hno

theorem Sound.runUpper (ht : t.Sound) (hid : t.isAttached id = true) (hn : t.Shows id n) (s : ExecState) :
    t.StepsTo id ((ExecRule.upper.run n none s).map fun done => (done.command, done.state))
      (.ok (t.runUpper id s)) := by
  rw [ExecRule.run, Tree.runUpper, (ht.sameText hn).synthesize]
  obtain ⟨text, dependencies, u⟩ := synthesize s (ExecRule.bodyItems n)
  cases text with
  | none => exact .same hn u
  | some text =>
    simp only [ExecRule.attachUpper]
    generalize (Deferred.mk (ExecRule.upperInput text u.position) _ _).eval u.cache = found
    cases found.value with
    | none => exact .same hn _
    | some value =>
      cases value
      case string text => exact ⟨_, rfl, ht.replaceLiterals hid hn _⟩
      all_goals exact .same hn _

theorem Sound.runRule_none (ht : t.Sound) (hid : t.isAttached id = true) (hn : t.Shows id n)
    (rule : ExecRule) (s : ExecState) :
    t.StepsTo id ((rule.run n none s).map fun done => (done.command, done.state))
      ((t.runRule rule id none s).map fun (t, _, s) => (t, s)) := by
  by_cases hrule : rule = .upper
  · subst hrule
    exact ht.runUpper hid hn s
  · have hrun : t.runRule rule id none s = do
        let done ← rule.run (t.subtree id) none s
        return (t, done.host, done.state) := by
      cases rule <;> first | rfl | exact absurd rfl hrule
    rw [hrun]
    obtain ⟨e, he, he'⟩ | ⟨g, u, he, he'⟩ | ⟨hupper, -⟩ := rule.run_cases none s (ht.sameText hn)
    · rw [he, he']
      rfl
    · rw [he, he']
      exact .same hn u
    · exact absurd hupper hrule

theorem Sound.runAssignment (ht : t.Sound) (hn : t.Shows id n) (rules : Table ExecRule) (s : ExecState) :
    t.StepsTo id (Evomark.runAssignment rules n s) (t.runAssignment rules id s) := by
  obtain ⟨label, children⟩ := n
  have hchildren := hn.children
  rw [Evomark.runAssignment, Tree.runAssignment, hn.content_eq]
  cases children with
  | nil =>
    rw [hchildren.ids_eq_nil]
    rfl
  | cons command rest =>
    obtain ⟨c, more, hids, hcommand, -⟩ := hchildren.exists_cons
    rw [hids]
    simp only [hcommand.kind_eq, hcommand.content_eq]
    split
    · rfl
    · cases rules.get? (t.label c).content with
      | none => rfl
      | some rule =>
        obtain ⟨e, he, he'⟩ | ⟨g, u, he, he'⟩ :=
          ht.runRule_some hcommand rule { name := (t.label id).content } s
        · simp only [he, he']
          rfl
        · simp only [he, he']
          exact .same hn _

theorem Sound.runStep (ht : t.Sound) (hid : t.isAttached id = true) (hn : t.Shows id n)
    (rules : Table ExecRule) (s : ExecState) :
    t.StepsTo id (Evomark.runStep rules n s) (t.runStep rules id s) := by
  rw [Evomark.runStep, Tree.runStep, hn.kind_eq]
  cases t.kind id
  case varUse => exact ht.runUse hid hn s
  case varAssign => exact ht.runAssignment hn rules s
  case cmd =>
    rw [hn.content_eq]
    cases rules.get? (t.label id).content with
    | none => rfl
    | some rule => exact ht.runRule_none hid hn rule s
  all_goals rfl

end

end Tree

end Evomark
