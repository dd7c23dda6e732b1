import Evomark.Proofs.Document.Reread
import Evomark.Proofs.Exec.Walk
/-!
# Passes and places

A pass does not depend on where the nodes of a document stand in a source or in a tree: over the
nodes without their places it ends in the same state and with the same outcome, and leaves what it
leaves over the nodes, without their places (`runNodes_unplacedAll`).
-/

namespace Evomark

open Node

/-! ## The text of a body -/

theorem usedNames_unplacedAll (ns : List Node) : usedNames (unplacedAll ns) = usedNames ns := by
  induction ns with
  | nil => rfl
  | cons n rest ih =>
    unfold usedNames at ih ⊢
    rw [unplacedAll, List.filter_cons, List.filter_cons, kind_unplaced]
    split
    · rw [List.map_cons, List.map_cons, content_unplaced, ih]
    · exact ih

theorem assemble_unplacedAll (ns : List Node) : ∀ (s : ExecState) (hosts : List Nat),
    assemble s hosts (unplacedAll ns) = assemble s hosts ns := by
  induction ns with
  | nil => exact fun _ _ => rfl
  | cons n rest ih =>
    intro s hosts
    have hcount : n.unplaced.label.sepCount = n.label.sepCount := by
      cases n
      rfl
    rw [unplacedAll, assemble.eq_def, assemble.eq_def s hosts (n :: rest)]
    simp only [kind_unplaced, content_unplaced, hcount, ih]

theorem synthesize_unplacedAll (s : ExecState) (ns : List Node) :
    synthesize s (unplacedAll ns) = synthesize s ns := by
  simp only [synthesize, usedNames_unplacedAll, assemble_unplacedAll]

/-! ## Steps -/

theorem unplacedAll_filter (p : Kind → Bool) (ns : List Node) :
    (unplacedAll ns).filter (fun n => p n.kind) = unplacedAll (ns.filter fun n => p n.kind) := by
  induction ns with
  | nil => rfl
  | cons n rest ih =>
    rw [unplacedAll, List.filter_cons, List.filter_cons, kind_unplaced, ih]
    split <;> rfl

theorem firstBody?_unplaced (n : Node) : n.unplaced.firstBody? = n.firstBody?.map unplaced := by
  rw [firstBody?, firstBody?, children_unplaced, unplacedAll_eq, List.find?_map]
  have h : (fun n : Node => n.kind.isBody) ∘ unplaced = fun n => n.kind.isBody :=
    funext fun n => congrArg Kind.isBody (kind_unplaced n)
  rw [h]

theorem bodyItems_unplaced (n : Node) :
    ExecRule.bodyItems n.unplaced = unplacedAll (ExecRule.bodyItems n) := by
  rw [ExecRule.bodyItems, ExecRule.bodyItems, firstBody?_unplaced]
  cases n.firstBody? with
  | none => rfl
  | some body => exact children_unplaced body

theorem sameText_unplaced (n : Node) : ExecRule.SameText n n.unplaced := by
  refine ⟨fun s => ?_, ?_⟩
  · rw [bodyItems_unplaced, synthesize_unplacedAll]
  · rw [bodyItems_unplaced, usedNames_unplacedAll]

theorem attachResult_unplaced (n : Node) (text : String) :
    ExecRule.attachResult n.unplaced text = (ExecRule.attachResult n text).unplaced := by
  obtain ⟨label, children⟩ := n
  show Node.mk label.unplaced ((unplacedAll children).filter (fun n => n.kind != .literal) ++ _) =
    Node.mk label.unplaced (unplacedAll (children.filter (fun n => n.kind != .literal) ++ _))
  rw [unplacedAll_append, ← unplacedAll_filter (· != .literal)]
  rfl

/-- The result of a step without the places of its node. -/
def unplacedStep (r : Node × ExecState) : Node × ExecState := (r.1.unplaced, r.2)

theorem runUse_unplaced (n : Node) (s : ExecState) :
    runUse n.unplaced s = (runUse n s).map unplacedStep := by
  obtain ⟨label, children⟩ := n
  have hothers := unplacedAll_filter (· != .literal) children
  unfold runUse
  simp only [content_unplaced, children_unplaced]
  cases s.bound? (content ⟨label, children⟩) with
  | none => rfl
  | some id =>
    simp only [hothers]
    split
    · simp only [Except.map, unplacedStep, withChildren, unplaced, unplacedAll_append, Label.unplaced]
      rfl
    · rfl

theorem runAssignment_unplaced (rules : Table ExecRule) (n : Node) (s : ExecState) :
    runAssignment rules n.unplaced s = (runAssignment rules n s).map unplacedStep := by
  obtain ⟨label, children⟩ := n
  unfold runAssignment
  cases children with
  | nil => rfl
  | cons command rest =>
    simp only [children_unplaced, content_unplaced, unplacedAll, kind_unplaced]
    split
    · rfl
    · cases rules.get? command.content with
      | none => rfl
      | some rule =>
        simp only
        obtain ⟨e, he, he'⟩ | ⟨g, t, he, he'⟩ | ⟨-, hno, -⟩ :=
          rule.run_cases (some { name := (Node.mk label (command :: rest)).content }) s
            (sameText_unplaced command)
        · rw [he, he']
          rfl
        · rw [he, he']
          cases g <;> rfl
        · simp at hno

/-- A step over a node without places. -/
theorem runStep_unplaced (rules : Table ExecRule) (n : Node) (s : ExecState) :
    runStep rules n.unplaced s = (runStep rules n s).map unplacedStep := by
  unfold runStep
  rw [kind_unplaced, content_unplaced]
  cases n.kind
  case varUse => exact runUse_unplaced n s
  case varAssign => exact runAssignment_unplaced rules n s
  case cmd =>
    cases rules.get? n.content with
    | none => rfl
    | some rule =>
      simp only
      obtain ⟨e, he, he'⟩ | ⟨g, t, he, he'⟩ | ⟨-, -, text, t, he, he'⟩ :=
        rule.run_cases none s (sameText_unplaced n)
      · rw [he, he']
        rfl
      · rw [he, he']
        rfl
      · rw [he, he', attachResult_unplaced]
        rfl
  all_goals rfl

theorem runStep_unplaced_ok {rules : Table ExecRule} {n m : Node} {s t : ExecState}
    (h : runStep rules n s = .ok (m, t)) : runStep rules n.unplaced s = .ok (m.unplaced, t) := by
  rw [runStep_unplaced, h]
  rfl

theorem runStep_unplaced_error {rules : Table ExecRule} {n : Node} {s : ExecState} {e : ExecError}
    (h : runStep rules n s = .error e) : runStep rules n.unplaced s = .error e := by
  rw [runStep_unplaced, h]
  rfl

/-! ## Markers -/

theorem isCommand_unplaced (n : Node) : n.unplaced.kind.isCommand = n.kind.isCommand := by
  rw [kind_unplaced]

theorem isMarker_unplaced (n : Node) : n.unplaced.isMarker = n.isMarker := by
  cases n
  rfl

theorem afterMarker_unplaced (n : Node) (rest : List Node) :
    afterMarker n.unplaced (unplacedAll rest) = unplacedAll (afterMarker n rest) := by
  cases rest with
  | nil => rfl
  | cons sep more =>
    have h : (n.unplaced.isWarningMarker && sep.unplaced.isMarkerSep) =
        (n.isWarningMarker && sep.isMarkerSep) := by
      cases n
      cases sep
      rfl
    simp only [unplacedAll, afterMarker, h]
    split <;> rfl

theorem stripMarkers_of_marker {n : Node} {rest : List Node} (h : n.isMarker = true) :
    stripMarkers (n :: rest) = stripMarkers (afterMarker n rest) := by
  cases rest with
  | nil => simp [stripMarkers, afterMarker, h]
  | cons sep more =>
    rw [stripMarkers]
    simp only [h, if_true, afterMarker]
    split <;> rfl

theorem stripMarkers_of_not_marker {n : Node} {rest : List Node} (h : n.isMarker = false) :
    stripMarkers (n :: rest) = n :: rest := by
  unfold stripMarkers
  exact if_neg (by rw [h]; decide)

theorem stripMarkers_unplacedAll (ns : List Node) :
    stripMarkers (unplacedAll ns) = unplacedAll (stripMarkers ns) := by
  fun_induction stripMarkers ns with
  | case1 => rfl
  | case2 n hm =>
    show stripMarkers (n.unplaced :: []) = _
    rw [stripMarkers_of_marker ((isMarker_unplaced n).trans hm)]
    rfl
  | case3 n hm sep more hs ih =>
    rw [unplacedAll, stripMarkers_of_marker ((isMarker_unplaced n).trans hm), afterMarker_unplaced,
      afterMarker, if_pos hs, ih]
  | case4 n hm sep more hs ih =>
    rw [unplacedAll, stripMarkers_of_marker ((isMarker_unplaced n).trans hm), afterMarker_unplaced,
      afterMarker, if_neg hs, ih]
  | case5 n rest hm =>
    rw [unplacedAll, stripMarkers_of_not_marker (by rw [isMarker_unplaced]; simpa using hm)]

theorem unplacedAll_warningMarkers (warnings : List String) :
    unplacedAll (warningMarkers warnings) = warningMarkers warnings := by
  unfold warningMarkers
  split <;> rfl

theorem haltIsMarked_unplacedAll (ns : List Node) : haltIsMarked (unplacedAll ns) = haltIsMarked ns := by
  induction ns with
  | nil => rfl
  | cons n rest ih =>
    unfold haltIsMarked at ih ⊢
    rw [unplacedAll, List.dropWhile_cons, List.dropWhile_cons, kind_unplaced]
    by_cases hk : n.kind == .sep
    · rw [if_pos hk, if_pos hk]
      exact ih
    · rw [if_neg hk, if_neg hk]
      cases n
      rfl

/-- What stands behind a step that ends the pass depends on what stood there without markers. -/
theorem behindHalt_unplacedAll {ns ms : List Node} (warnings : List String)
    (h : stripMarkers ms = unplacedAll (stripMarkers ns)) :
    behindHalt warnings ms = unplacedAll (behindHalt warnings ns) := by
  have hbehind : warningMarkers warnings ++ stripMarkers ms =
      unplacedAll (warningMarkers warnings ++ stripMarkers ns) := by
    rw [h, unplacedAll_append, unplacedAll_warningMarkers]
  unfold behindHalt
  simp only
  rw [hbehind, haltIsMarked_unplacedAll]
  split <;> rfl

/-! ## A whole pass -/

/-- The walk without the places of its nodes. -/
def Walk.unplaced (w : Walk) : Walk := { w with nodes := unplacedAll w.nodes }

/-- A pass over nodes without places. -/
theorem runNodes_unplacedAll (rules : Table ExecRule) (ns : List Node) (s : ExecState) :
    runNodes rules (unplacedAll ns) s = (runNodes rules ns s).unplaced := by
  refine runNodes_induct rules (motive := fun ns s w => runNodes rules (unplacedAll ns) s = w.unplaced)
    ?nil ?marker ?failed ?halted ?executed ?inside ?ended ns s
  case nil => exact fun _ => rfl
  case marker =>
    intro n rest s hm ih
    rw [unplacedAll, runNodes_of_marker ((isMarker_unplaced n).trans hm), afterMarker_unplaced, ih]
  case failed =>
    intro n rest s e hn hm hr
    rw [unplacedAll, runNodes_of_error ((isCommand_unplaced n).trans hn) ((isMarker_unplaced n).trans hm)
      (runStep_unplaced_error hr), stripMarkers_unplacedAll]
    rfl
  case halted =>
    intro n rest s m t hn hm hr ht
    rw [unplacedAll, runNodes_of_halted ((isCommand_unplaced n).trans hn)
      ((isMarker_unplaced n).trans hm) (runStep_unplaced_ok hr) ht,
      behindHalt_unplacedAll _ (stripMarkers_unplacedAll rest)]
    rfl
  case executed =>
    intro n rest s m t hn hm hr ht ih
    rw [unplacedAll, runNodes_of_ok ((isCommand_unplaced n).trans hn) ((isMarker_unplaced n).trans hm)
      (runStep_unplaced_ok hr) ht, ih]
    simp only [Walk.unplaced, unplacedAll, unplacedAll_append, unplacedAll_warningMarkers]
  case inside =>
    intro label children rest s w hn hw ho ih ihrest
    have hn' : label.unplaced.kind.isCommand = false := hn
    have hstate : (runNodes rules (unplacedAll children) s).state = w.state := by rw [ih]; rfl
    rw [unplacedAll, unplaced, runNodes_of_completed hn' (by rw [ih]; exact ho), hstate, ih, ihrest]
    rfl
  case ended =>
    intro label children rest s w hn hw ho ih
    have hn' : label.unplaced.kind.isCommand = false := hn
    rw [unplacedAll, unplaced, runNodes_of_ended hn' (by rw [ih]; exact ho), ih]
    rfl

end Evomark
