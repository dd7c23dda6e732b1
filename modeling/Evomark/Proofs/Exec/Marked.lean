import Evomark.Proofs.Document.Everywhere
import Evomark.Proofs.Exec.History
import Evomark.Proofs.Exec.Looks
/-!
# The markers that a pass leaves

`Ran` is a step of a pass by what is left of it in the document: the node at its place, and the
warnings that it queued. When a pass completes, its steps in order, each with the marker of its
warnings, are all commands of the document (`ran_runNodes`): no marker of an earlier pass is left, and
none of where a pass halted. When a pass halts, the markers of that stand behind its last step
(`halted_runNodes`). Both follow from what one step leaves behind its node, by induction over the walk.
-/

namespace Evomark

/-! ## Places -/

theorem Node.at?_behind (label : Label) (front ns : List Node) (k : Nat) :
    (Node.mk label (front ++ ns)).at? [front.length + k] = ns[k]? := by
  rw [at?, List.getElem?_append_right (Nat.le_add_right _ _), Nat.add_sub_cancel_left]
  cases ns[k]? <;> rfl

theorem Node.at?_inside (label : Label) (front : List Node) (n : Node) (rest : List Node) (place : List Nat) :
    (Node.mk label (front ++ n :: rest)).at? (front.length :: place) = n.at? place := by
  rw [at?, List.getElem?_append_right (Nat.le_refl _), Nat.sub_self]
  rfl

theorem commandsOf_of_command {n : Node} {rest : List Node} (i : Nat) (hn : n.kind.isCommand = true) :
    commandsOf i (n :: rest) = ([i], n) :: commandsOf (i + 1) rest := by
  obtain ⟨label, children⟩ := n
  rw [commandsOf, commandsAt, if_pos (show label.kind.isCommand = true from hn)]
  rfl

theorem commandsOf_of_not_command {label : Label} {children rest : List Node} (i : Nat)
    (hn : label.kind.isCommand = false) :
    commandsOf i (⟨label, children⟩ :: rest) =
      (commandsOf 0 children).map (fun (place, n) => (i :: place, n)) ++ commandsOf (i + 1) rest := by
  rw [commandsOf, commandsAt, if_neg (by rw [hn]; decide)]

/-! ## Markers -/

/-- The marker that shows warnings: a body with one literal, the warnings in order, one a line. -/
def warningMarker (warnings : List String) : Node :=
  let message := String.intercalate "\n" warnings
  let layout := if message.toList.contains '\n' then Layout.block else .inline
  ⟨{ kind := .cmd, content := warningName },
    [⟨{ kind := .body, layout := some layout }, [.leaf { kind := .literal, content := message }]⟩]⟩

/-- The separator behind a marker of warnings. -/
def markerSep : Node := .leaf { kind := .sep, value := some (.int 1) }

theorem warningMarkers_of_ne {warnings : List String} (h : warnings ≠ []) :
    warningMarkers warnings = [warningMarker warnings, markerSep] :=
  if_neg (by simpa using h)

/-- Behind a step that ends the pass and says why stand its markers, and no marker behind those. -/
theorem behindHalt_of_ne {warnings : List String} (h : warnings ≠ []) (rest : List Node) :
    behindHalt warnings rest = haltMarker :: warningMarker warnings :: markerSep :: stripMarkers rest := by
  unfold behindHalt
  simp only [warningMarkers_of_ne h]
  exact if_neg Bool.false_ne_true

theorem not_isMarker_of_stripMarkers {ns : List Node} {n : Node} (h : (stripMarkers ns)[0]? = some n) :
    n.isMarker = false := by
  fun_induction stripMarkers ns with
  | case1 => cases h
  | case2 => cases h
  | case3 _ _ _ _ _ ih => exact ih h
  | case4 _ _ _ _ _ ih => exact ih h
  | case5 n' rest hm =>
    obtain rfl := Option.some.inj h
    simpa using hm

/-! ## Steps in a document -/

/-- A step of a pass by what is left of it: its node, the `index`-th child of the node at `parent`, and
the warnings that it queued. -/
structure Ran where
  parent : List Nat
  index : Nat
  node : Node
  warnings : List String

namespace Ran

/-- The place of the `k`-th sibling behind the node. -/
def place (r : Ran) (k : Nat) : List Nat := r.parent ++ [r.index + k]

/-- The node and, behind it, the marker of its warnings if there are any. -/
def commands (r : Ran) : List (List Nat × Node) :=
  (r.place 0, r.node) :: if r.warnings = [] then [] else [(r.place 1, warningMarker r.warnings)]

/-- The step seen from further up, below the `i`-th child. -/
def below (i : Nat) (r : Ran) : Ran := { r with parent := i :: r.parent }

/-- The node stands at its place and is no marker. If there are warnings, their marker is the next
sibling, and a separator the one after. -/
structure Stands (r : Ran) (document : Node) : Prop where
  executed : r.node.isMarker = false
  node : document.at? (r.place 0) = some r.node
  warning : r.warnings ≠ [] → document.at? (r.place 1) = some (warningMarker r.warnings)
  sep : r.warnings ≠ [] → document.at? (r.place 2) = some markerSep

/-- The step has ended the pass: behind its node stand one marker of that, the marker of its warnings
with a separator, and no marker behind those. -/
structure Halts (r : Ran) (document : Node) : Prop where
  node : document.at? (r.place 0) = some r.node
  halt : document.at? (r.place 1) = some haltMarker
  warning : document.at? (r.place 2) = some (warningMarker r.warnings)
  sep : document.at? (r.place 3) = some markerSep
  behind : ∀ n, document.at? (r.place 4) = some n → n.isMarker = false

theorem flatMap_commands_below (i : Nat) (ran : List Ran) :
    (ran.map (below i)).flatMap commands =
      (ran.flatMap commands).map fun (place, n) => (i :: place, n) := by
  rw [List.flatMap_map, List.map_flatMap]
  refine List.flatMap_congr fun r _ => ?_
  unfold commands
  split <;> simp_all [below, place]

theorem Stands.below {r : Ran} {n : Node} (h : r.Stands n) (label : Label) (front rest : List Node) :
    (r.below front.length).Stands ⟨label, front ++ n :: rest⟩ :=
  have hat := Node.at?_inside label front n rest
  ⟨h.executed, (hat _).trans h.node, fun hw => (hat _).trans (h.warning hw),
    fun hw => (hat _).trans (h.sep hw)⟩

/-- A step that has not ended the pass leaves no marker of that. -/
theorem Stands.not_isHaltMarker {r : Ran} {document : Node} (h : r.Stands document)
    {command : List Nat × Node} (hc : command ∈ r.commands) : command.2.isHaltMarker = false := by
  rw [commands, List.mem_cons] at hc
  rcases hc with rfl | hc
  · have hm := h.executed
    simp only [Node.isMarker, Bool.and_or_distrib_left, Bool.or_eq_false_iff] at hm
    exact hm.2
  · split at hc
    · cases hc
    · rw [List.mem_singleton.1 hc]
      rfl

theorem Halts.below {r : Ran} {n : Node} (h : r.Halts n) (label : Label) (front rest : List Node) :
    (r.below front.length).Halts ⟨label, front ++ n :: rest⟩ :=
  have hat := Node.at?_inside label front n rest
  ⟨(hat _).trans h.node, (hat _).trans h.halt, (hat _).trans h.warning, (hat _).trans h.sep,
    fun m hm => h.behind m ((hat _).symm.trans hm)⟩

end Ran

/-- The node that a step leaves, and the warnings that it queues. -/
def stepResult (rules : Table ExecRule) (step : Node × ExecState) : Node × List String :=
  match runStep rules step.1 step.2 with
  | .error _ => (step.1, [])
  | .ok (n, s) => (n, s.warnings)

/-- What one step leaves in the document. -/
theorem ran_of_step {m : Node} (hn : m.kind.isCommand = true) (hm : m.isMarker = false)
    (warnings : List String) (label : Label) (front ns : List Node) :
    let r : Ran := ⟨[], front.length, m, warnings⟩
    commandsOf front.length (m :: (warningMarkers warnings ++ ns)) =
        r.commands ++ commandsOf (front ++ m :: warningMarkers warnings).length ns ∧
      r.Stands ⟨label, front ++ m :: (warningMarkers warnings ++ ns)⟩ := by
  intro r
  by_cases hw : warnings = []
  · subst hw
    refine ⟨?_, hm, Node.at?_behind label front _ 0, fun h => absurd rfl h, fun h => absurd rfl h⟩
    rw [commandsOf_of_command _ hn]
    simp [r, warningMarkers, Ran.commands, Ran.place]
  · rw [warningMarkers_of_ne hw]
    have hat := Node.at?_behind label front (m :: ([warningMarker warnings, markerSep] ++ ns))
    refine ⟨?_, hm, hat 0, fun _ => hat 1, fun _ => hat 2⟩
    show commandsOf front.length (m :: warningMarker warnings :: markerSep :: ns) = _
    rw [commandsOf_of_command _ hn, commandsOf_of_command _ rfl, markerSep, Node.leaf,
      commandsOf_of_not_command _ rfl]
    simp [r, hw, Ran.commands, Ran.place, commandsOf]

/-! ## A whole pass -/

/-- The step neither fails nor ends the pass. -/
def goesOn (rules : Table ExecRule) (step : Node × ExecState) : Bool :=
  match runStep rules step.1 step.2 with
  | .error _ => false
  | .ok (_, t) => !t.halted

/-- What a walk leaves of its steps, its nodes standing behind `front` among the children of a node: each
step that goes on leaves its node and the marker of its warnings; these are the first commands, and all
of them when the walk completes. -/
structure Leaves (rules : Table ExecRule) (ns : List Node) (s : ExecState) (w : Walk) (label : Label)
    (front : List Node) (ran : List Ran) : Prop where
  results : ran.map (fun r => (r.node, r.warnings)) =
    ((stepsOf rules ns s).filter (goesOn rules)).map (stepResult rules)
  first : ran.flatMap Ran.commands <+: commandsOf front.length w.nodes
  completed : w.outcome = .completed → (∀ step ∈ stepsOf rules ns s, goesOn rules step = true) ∧
    commandsOf front.length w.nodes = ran.flatMap Ran.commands
  stands : ∀ r ∈ ran, r.Stands ⟨label, front ++ w.nodes⟩

namespace Leaves

variable {rules : Table ExecRule} {n m : Node} {rest front : List Node} {s t : ExecState} {w : Walk}
  {label : Label} {ran : List Ran}

/-- The step that ends a walk is not among those that it leaves. -/
theorem last {step : Node × ExecState} (hsteps : stepsOf rules (n :: rest) s = [step])
    (hends : goesOn rules step = false) (ho : w.outcome ≠ .completed) :
    Leaves rules (n :: rest) s w label front [] where
  results := by rw [hsteps, List.filter_singleton, hends]; rfl
  first := List.nil_prefix
  completed h := absurd h ho
  stands := by simp

/-- The first step, if the walk goes on behind it and its warnings. -/
theorem step (hn : n.kind.isCommand = true) (hm : n.isMarker = false)
    (hr : runStep rules n s = .ok (m, t)) (ht : t.halted = false)
    (h : Leaves rules rest t.next w label (front ++ m :: warningMarkers t.warnings) ran) :
    Leaves rules (n :: rest) s ⟨m :: (warningMarkers t.warnings ++ w.nodes), w.state, w.outcome⟩ label front
      (⟨[], front.length, m, t.warnings⟩ :: ran) := by
  have hgoes : goesOn rules (n, s) = true := by simp [goesOn, hr, ht]
  obtain ⟨hn', hm'⟩ := isCommand_of_runStep hn hm hr
  obtain ⟨hcommands, hstands⟩ := ran_of_step hn' hm' t.warnings label front w.nodes
  have hall := h.stands
  rw [List.append_assoc] at hall
  constructor
  case results =>
    rw [stepsOf_of_ok hn hm hr ht, List.filter_cons_of_pos hgoes, List.map_cons, List.map_cons, h.results,
      stepResult]
    simp only [hr]
  case first =>
    rw [hcommands, List.flatMap_cons]
    exact (List.prefix_append_right_inj _).2 h.first
  case completed =>
    intro ho
    obtain ⟨hgo, hrest⟩ := h.completed ho
    rw [stepsOf_of_ok hn hm hr ht, hcommands, hrest, List.flatMap_cons]
    exact ⟨List.forall_mem_cons.2 ⟨hgoes, hgo⟩, rfl⟩
  case stands => exact List.forall_mem_cons.2 ⟨hstands, hall⟩

variable {inner : Label} {children : List Node}

/-- The steps inside the first node and those behind it, if the walk inside completes. -/
theorem inside {ran' : List Ran} (hn : inner.kind.isCommand = false)
    (ho : (runNodes rules children s).outcome = .completed)
    (h : Leaves rules children s (runNodes rules children s) inner [] ran)
    (h' : Leaves rules rest (runNodes rules children s).state w label
      (front ++ [⟨inner, (runNodes rules children s).nodes⟩]) ran') :
    Leaves rules (⟨inner, children⟩ :: rest) s
      ⟨⟨inner, (runNodes rules children s).nodes⟩ :: w.nodes, w.state, w.outcome⟩ label front
      (ran.map (.below front.length) ++ ran') := by
  obtain ⟨hgo, hinside⟩ := h.completed ho
  have hcommands : commandsOf front.length (⟨inner, (runNodes rules children s).nodes⟩ :: w.nodes) =
      (ran.map (.below front.length)).flatMap Ran.commands ++
        commandsOf (front ++ [Node.mk inner (runNodes rules children s).nodes]).length w.nodes := by
    rw [commandsOf_of_not_command _ hn, Ran.flatMap_commands_below, ← hinside, List.length_append]
    rfl
  have hall := h'.stands
  rw [List.append_assoc] at hall
  constructor
  case results =>
    rw [stepsOf_of_completed hn ho, List.map_append, List.filter_append, List.map_append, ← h.results,
      ← h'.results, List.map_map]
    rfl
  case first =>
    rw [hcommands, List.flatMap_append]
    exact (List.prefix_append_right_inj _).2 h'.first
  case completed =>
    intro ho'
    obtain ⟨hgo', hrest⟩ := h'.completed ho'
    rw [stepsOf_of_completed hn ho, hcommands, hrest, List.flatMap_append]
    exact ⟨List.forall_mem_append.2 ⟨hgo, hgo'⟩, rfl⟩
  case stands =>
    refine List.forall_mem_append.2 ⟨List.forall_mem_map.2 fun r hr => ?_, hall⟩
    exact (h.stands r hr).below label front _

/-- The steps inside the first node, if the walk ends there. -/
theorem ended (hn : inner.kind.isCommand = false) (ho : (runNodes rules children s).outcome ≠ .completed)
    (h : Leaves rules children s (runNodes rules children s) inner [] ran) :
    Leaves rules (⟨inner, children⟩ :: rest) s
      ⟨⟨inner, (runNodes rules children s).nodes⟩ :: rest, (runNodes rules children s).state,
        (runNodes rules children s).outcome⟩ label front (ran.map (.below front.length)) where
  results := by
    rw [stepsOf_of_ended hn ho, ← h.results, List.map_map]
    rfl
  first := by
    rw [commandsOf_of_not_command _ hn, Ran.flatMap_commands_below]
    exact (h.first.map _).trans (List.prefix_append _ _)
  completed ho' := absurd ho' ho
  stands := List.forall_mem_map.2 fun r hr => (h.stands r hr).below label front rest

end Leaves

/-- However a pass ends, there are steps that it leaves. -/
theorem exists_leaves (rules : Table ExecRule) (ns : List Node) (s : ExecState) (label : Label)
    (front : List Node) : ∃ ran, Leaves rules ns s (runNodes rules ns s) label front ran := by
  revert label front
  refine runNodes_induct rules (motive := fun ns s w => ∀ (label : Label) (front : List Node),
      ∃ ran, Leaves rules ns s w label front ran)
    ?nil ?marker ?failed ?halted ?executed ?inside ?ended ns s
  case nil =>
    intro s label front
    have hsteps : stepsOf rules [] s = [] := by rw [stepsOf]
    exact ⟨[], by rw [hsteps]; rfl, List.nil_prefix, fun _ => ⟨by simp [hsteps], rfl⟩, by simp⟩
  case marker =>
    intro n rest s hm ih label front
    obtain ⟨ran, h⟩ := ih label front
    refine ⟨ran, ?_, h.first, ?_, h.stands⟩
    · rw [stepsOf_of_marker hm, h.results]
    · rw [stepsOf_of_marker hm]
      exact h.completed
  case failed =>
    intro n rest s e hn hm hr label front
    exact ⟨[], .last (stepsOf_of_error hn hm hr) (by simp [goesOn, hr]) (by simp)⟩
  case halted =>
    intro n rest s m t hn hm hr ht label front
    exact ⟨[], .last (stepsOf_of_halted hn hm hr ht) (by simp [goesOn, hr, ht]) (by simp)⟩
  case executed =>
    intro n rest s m t hn hm hr ht ih label front
    obtain ⟨ran, h⟩ := ih label (front ++ m :: warningMarkers t.warnings)
    exact ⟨_, h.step hn hm hr ht⟩
  case inside =>
    intro inner children rest s w hn hw ho ih ihrest label front
    subst hw
    obtain ⟨ran, h⟩ := ih inner []
    obtain ⟨ran', h'⟩ := ihrest label (front ++ [⟨inner, (runNodes rules children s).nodes⟩])
    exact ⟨_, .inside hn ho h h'⟩
  case ended =>
    intro inner children rest s w hn hw ho ih label front
    subst hw
    obtain ⟨ran, h⟩ := ih inner []
    exact ⟨_, h.ended hn ho⟩

/-- A pass that completes leaves its steps, each with the marker of its warnings, and no other
commands. The nodes are those behind `front` among the children of a node. -/
theorem ran_runNodes (rules : Table ExecRule) (ns : List Node) (s : ExecState) (label : Label)
    (front : List Node) (ho : (runNodes rules ns s).outcome = .completed) :
    ∃ ran : List Ran, ran.map (fun r => (r.node, r.warnings)) = (stepsOf rules ns s).map (stepResult rules) ∧
      commandsOf front.length (runNodes rules ns s).nodes = ran.flatMap Ran.commands ∧
      ∀ r ∈ ran, r.Stands ⟨label, front ++ (runNodes rules ns s).nodes⟩ := by
  obtain ⟨ran, h⟩ := exists_leaves rules ns s label front
  obtain ⟨hgo, hcommands⟩ := h.completed ho
  have hran := h.results
  rw [List.filter_eq_self.2 hgo] at hran
  exact ⟨ran, hran, hcommands, h.stands⟩

/-- Behind the last step of a pass that halts stand the markers of that, if the step says why. -/
theorem halted_runNodes (rules : Table ExecRule) (ns : List Node) (s : ExecState) (label : Label)
    (front : List Node) (ho : (runNodes rules ns s).outcome = .halted) :
    ∃ before n u t, ∃ r : Ran, stepsOf rules ns s = before ++ [(n, u)] ∧
      runStep rules n u = .ok (r.node, t) ∧ t.halted = true ∧ r.warnings = t.warnings ∧
      (t.warnings ≠ [] → r.Halts ⟨label, front ++ (runNodes rules ns s).nodes⟩) := by
  revert label front ho
  refine runNodes_induct rules (motive := fun ns s w => ∀ (label : Label) (front : List Node),
      w.outcome = .halted →
      ∃ before n u t, ∃ r : Ran, stepsOf rules ns s = before ++ [(n, u)] ∧
        runStep rules n u = .ok (r.node, t) ∧ t.halted = true ∧ r.warnings = t.warnings ∧
        (t.warnings ≠ [] → r.Halts ⟨label, front ++ w.nodes⟩))
    ?nil ?marker ?failed ?halted ?executed ?inside ?ended ns s
  case nil => exact fun _ _ _ ho => Outcome.noConfusion ho
  case marker =>
    intro n rest s hm ih label front ho
    rw [stepsOf_of_marker hm]
    exact ih label front ho
  case failed => exact fun _ _ _ _ _ _ _ _ _ ho => Outcome.noConfusion ho
  case halted =>
    intro n rest s m t hn hm hr ht label front _
    refine ⟨[], n, s, t, ⟨[], front.length, m, t.warnings⟩, stepsOf_of_halted hn hm hr ht, hr, ht, rfl,
      fun hw => ?_⟩
    have hat := Node.at?_behind label front (m :: behindHalt t.warnings rest)
    rw [behindHalt_of_ne hw] at hat ⊢
    exact ⟨hat 0, hat 1, hat 2, hat 3, fun n hn => not_isMarker_of_stripMarkers ((hat 4).symm.trans hn)⟩
  case executed =>
    intro n rest s m t hn hm hr ht ih label front ho
    obtain ⟨before, n', u, t', r, hsteps, hstep⟩ := ih label (front ++ m :: warningMarkers t.warnings) ho
    rw [List.append_assoc] at hstep
    exact ⟨(n, s) :: before, n', u, t', r, by rw [stepsOf_of_ok hn hm hr ht, hsteps]; rfl, hstep⟩
  case inside =>
    intro label' children rest s w hn hw hcompleted ih ihrest label front ho
    subst hw
    obtain ⟨before, n', u, t', r, hsteps, hstep⟩ :=
      ihrest label (front ++ [⟨label', (runNodes rules children s).nodes⟩]) ho
    rw [List.append_assoc] at hstep
    refine ⟨stepsOf rules children s ++ before, n', u, t', r, ?_, hstep⟩
    rw [stepsOf_of_completed hn hcompleted, hsteps, List.append_assoc]
  case ended =>
    intro label' children rest s w hn hw hne ih label front ho
    subst hw
    obtain ⟨before, n', u, t', r, hsteps, hr, ht, hwarnings, hhalts⟩ := ih label' [] ho
    refine ⟨before, n', u, t', r.below front.length, ?_, hr, ht, hwarnings,
      fun hw => (hhalts hw).below label front rest⟩
    rw [stepsOf_of_ended hn hne, hsteps]

/-- No warning is queued and the pass goes on. -/
def ExecState.Calm (s : ExecState) : Prop := s.halted = false ∧ s.warnings = []

/-- Each step starts calmly: the warnings of earlier ones have been written into the document. -/
theorem calm_stepsOf (rules : Table ExecRule) (ns : List Node) (s : ExecState) (h : s.Calm) :
    (∀ step ∈ stepsOf rules ns s, step.2.Calm) ∧
      ((runNodes rules ns s).outcome = .completed → (runNodes rules ns s).state.Calm) := by
  revert h
  refine runNodes_induct rules (motive := fun ns s w => s.Calm →
      (∀ step ∈ stepsOf rules ns s, step.2.Calm) ∧ (w.outcome = .completed → w.state.Calm))
    ?nil ?marker ?failed ?halted ?executed ?inside ?ended ns s
  case nil =>
    intro s h
    rw [stepsOf]
    exact ⟨by simp, fun _ => h⟩
  case marker =>
    intro n rest s hm ih h
    rw [stepsOf_of_marker hm]
    exact ih h
  case failed =>
    intro n rest s e hn hm hr h
    rw [stepsOf_of_error hn hm hr]
    exact ⟨by simpa using h, fun ho => Outcome.noConfusion ho⟩
  case halted =>
    intro n rest s m t hn hm hr ht h
    rw [stepsOf_of_halted hn hm hr ht]
    exact ⟨by simpa using h, fun ho => Outcome.noConfusion ho⟩
  case executed =>
    intro n rest s m t hn hm hr ht ih h
    obtain ⟨hsteps, hend⟩ := ih ⟨ht, rfl⟩
    rw [stepsOf_of_ok hn hm hr ht]
    exact ⟨List.forall_mem_cons.2 ⟨h, hsteps⟩, hend⟩
  case inside =>
    intro label children rest s w hn hw ho ih ihrest h
    subst hw
    obtain ⟨hsteps, hend⟩ := ih h
    obtain ⟨hsteps', hend'⟩ := ihrest (hend ho)
    rw [stepsOf_of_completed hn ho]
    exact ⟨List.forall_mem_append.2 ⟨hsteps, hsteps'⟩, hend'⟩
  case ended =>
    intro label children rest s w hn hw hne ih h
    subst hw
    rw [stepsOf_of_ended hn hne]
    exact ⟨(ih h).1, fun ho => absurd ho hne⟩

/-- Whatever passes came before, a pass leaves exactly its own markers. When it completes, its steps,
each with the marker of the warnings that it queued, are all commands of the document, so that there is
no marker of where a pass halted. When it halts, one such marker stands behind its last step, and then
the marker of the warnings of that step, of which there are some. -/
theorem exec_marked (source : String) (passes : List Context) (ctx : Context) :
    let rules := Registry.standard.execution
    let document := (Registry.standard.parse source).document
    let left := afterPasses rules document passes
    let last := exec rules left ctx
    let steps := stepsOf rules left.children (.ofContext ctx)
    (∀ step ∈ steps, step.2.warnings = []) ∧
      (last.outcome = .completed →
        (∀ command ∈ commandList last.document, command.2.isHaltMarker = false) ∧
        ∃ ran : List Ran, ran.map (fun r => (r.node, r.warnings)) = steps.map (stepResult rules) ∧
          commandList last.document = ran.flatMap Ran.commands ∧ ∀ r ∈ ran, r.Stands last.document) ∧
      (last.outcome = .halted →
        ∃ before n u t, ∃ r : Ran, steps = before ++ [(n, u)] ∧ runStep rules n u = .ok (r.node, t) ∧
          t.halted = true ∧ r.warnings = t.warnings ∧ t.warnings ≠ [] ∧ r.Halts last.document) := by
  intro rules document left last steps
  have hcalm : ∀ step ∈ steps, step.2.Calm := (calm_stepsOf rules left.children (.ofContext ctx) ⟨rfl, rfl⟩).1
  obtain ⟨label, children⟩ := left
  refine ⟨fun step h => (hcalm step h).2, fun ho => ?_, fun ho => ?_⟩
  · obtain ⟨ran, hran, hcommands, hstands⟩ := ran_runNodes rules children (.ofContext ctx) label [] ho
    refine ⟨?_, ran, hran, hcommands, hstands⟩
    intro command hc
    rw [show commandList last.document = _ from hcommands, List.mem_flatMap] at hc
    obtain ⟨r, hr, hc⟩ := hc
    exact (hstands r hr).not_isHaltMarker hc
  · obtain ⟨before, n, u, t, r, hsteps, hr, ht, hwarnings, hhalts⟩ :=
      halted_runNodes rules children (.ofContext ctx) label [] ho
    have hne : t.warnings ≠ [] := warnings_of_halted hr (hcalm (n, u) (by simp [steps, hsteps])).1 ht
    exact ⟨before, n, u, t, r, hsteps, hr, ht, hwarnings, hne, hhalts hne⟩

end Evomark
