import Evomark.Proofs.Exec.Marked
/-!
# Where a pass stops

A pass that does not complete stops at a command, the last of its steps. Behind that command, among its
siblings and among those of the nodes that it stands in, the document is left as it was, except that the
markers which directly follow the command have given way to its own. `Node.behind` are the nodes behind
a place, and `stopped_runNodes` says what becomes of them, by induction over the walk; what the pass has
made of the nodes before them does not matter.
-/

namespace Evomark

/-! ## Places -/

/-- The nodes behind a place: for each node on the way to it, the siblings that follow, outermost first. -/
def Node.behind (n : Node) : List Nat → List (List Node)
  | [] => []
  | i :: place =>
    n.children.drop (i + 1) :: match n.children[i]? with
      | none => []
      | some m => m.behind place

/-- The commands that a pass executes if it gets that far, with their places. -/
def itemsAt (i : Nat) (ns : List Node) : List (List Nat × Node) :=
  (commandsOf i ns).filter fun c => !c.2.isMarker

section

variable {n : Node} {rest : List Node} (i : Nat)

end

/-! ## Markers -/

/-- When a pass completes it has executed all commands. -/
theorem map_stepsOf_of_completed (rules : Table ExecRule) (ns : List Node) (s : ExecState)
    (h : SepsAreLeaves ns) (ho : (runNodes rules ns s).outcome = .completed) :
    (stepsOf rules ns s).map (·.1) = itemsOf ns := by
  revert h ho
  refine runNodes_induct rules (motive := fun ns s w => SepsAreLeaves ns → w.outcome = .completed →
      (stepsOf rules ns s).map (·.1) = itemsOf ns)
    ?nil ?marker ?failed ?halted ?executed ?inside ?ended ns s
  case nil =>
    intro s _ _
    rw [stepsOf]
    rfl
  case marker =>
    intro n rest s hm ih h ho
    rw [stepsOf_of_marker hm, itemsOf_of_marker hm h.tail]
    exact ih h.afterMarker ho
  case failed => exact fun _ _ _ _ _ _ _ _ ho => Outcome.noConfusion ho
  case halted => exact fun _ _ _ _ _ _ _ _ _ _ ho => Outcome.noConfusion ho
  case executed =>
    intro n rest s m t hn hm hr ht ih h ho
    rw [stepsOf_of_ok hn hm hr ht, itemsOf_of_command hn hm, List.map_cons, ih h.tail ho]
  case inside =>
    intro label children rest s w hn hw hcompleted ih ihrest h ho
    subst hw
    rw [stepsOf_of_completed hn hcompleted, itemsOf_of_not_command hn, List.map_append,
      ih (h.inside hn) hcompleted, ihrest h.tail ho]
  case ended => exact fun _ _ _ _ _ _ _ hne _ _ ho => absurd ho hne

/-- The step of `c` is the last: what it makes of `c` and of the siblings behind it, and how the pass ends. -/
inductive Stops (rules : Table ExecRule) (c : Node) (u : ExecState) (rest : List Node) :
    Node → List Node → ExecState → Outcome → Prop
  | failed {e : ExecError} (hr : runStep rules c u = .error e) :
    Stops rules c u rest c (stripMarkers rest) u (.failed e)
  | halted {m : Node} {t : ExecState} (hr : runStep rules c u = .ok (m, t)) (ht : t.halted = true) :
    Stops rules c u rest m (behindHalt t.warnings rest) t.last .halted

/-- Where a pass stops: the steps before the last one, the command of that and its state. The command is
at `place`, with `rest` behind it and `above` behind the nodes that it stands in; it is left as `left` at
`place'`, with `rest'` behind it and still `above` behind the others. -/
structure Stop where
  before : List (Node × ExecState)
  command : Node
  state : ExecState
  left : Node
  place : List Nat
  place' : List Nat
  above : List (List Node)
  rest : List Node
  rest' : List Node

/-- The walk `w` over the nodes `ns`, which come behind `front` among the children of a node, stops there.
What it leaves comes behind `front'`. -/
structure Stop.Ends (x : Stop) (rules : Table ExecRule) (ns : List Node) (s : ExecState) (w : Walk)
    (label : Label) (front : List Node) (label' : Label) (front' : List Node) : Prop where
  steps : stepsOf rules ns s = x.before ++ [(x.command, x.state)]
  item : (itemsAt front.length ns)[x.before.length]? = some (x.place, x.command)
  item' : (itemsAt front'.length w.nodes)[x.before.length]? = some (x.place', x.left)
  behind : (Node.mk label (front ++ ns)).behind x.place = x.above ++ [x.rest]
  behind' : (Node.mk label' (front' ++ w.nodes)).behind x.place' = x.above ++ [x.rest']
  stops : Stops rules x.command x.state x.rest x.left x.rest' w.state w.outcome

/-- There is nothing below the separators of a document that passes have left. -/
theorem sepsAreLeaves_afterPasses (rules : Table ExecRule) (document : Node) (passes : List Context)
    (h : SepsAreLeaves document.children) : SepsAreLeaves (afterPasses rules document passes).children := by
  induction passes generalizing document with
  | nil => exact h
  | cons ctx more ih =>
    obtain ⟨label, children⟩ := document
    exact ih _ (itemsOf_runNodes rules children (.ofContext ctx) h).1

end Evomark
