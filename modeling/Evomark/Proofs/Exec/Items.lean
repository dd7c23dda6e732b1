import Mathlib.Data.List.Basic
import Evomark.Proofs.Exec.Trace
/-!
# What a pass has before it

A pass walks over the nodes that are not below a command (`outerNodes`) and executes the commands
among them that are no markers (`itemsOf`), in order: over these alone, one after the other, it ends in
the same state and with the same outcome (`runNodes_itemsOf`). However many passes have left their
markers and results in a document, the commands are the same but for the results
(`itemsOf_runNodes` says so of one pass).
-/

namespace Evomark

mutual

/-- The nodes and all below them but what is below commands, parents before children. -/
def outerNodes : List Node → List Node
  | [] => []
  | n :: rest => n.outer ++ outerNodes rest

/-- A node and, if it is no command, what is below it. -/
def Node.outer : Node → List Node
  | ⟨label, children⟩ =>
    ⟨label, children⟩ :: if label.kind.isCommand then [] else outerNodes children

end

/-- The commands that a pass executes if it gets that far. -/
def itemsOf (ns : List Node) : List Node :=
  ((commandsOf 0 ns).map (·.2)).filter fun n => !n.isMarker

section

variable {n : Node} {rest : List Node}

theorem outerNodes_append (ns ms : List Node) :
    outerNodes (ns ++ ms) = outerNodes ns ++ outerNodes ms := by
  induction ns with
  | nil => rfl
  | cons n rest ih => rw [List.cons_append, outerNodes, outerNodes, ih, List.append_assoc]

theorem outerNodes_of_command (hn : n.kind.isCommand = true) :
    outerNodes (n :: rest) = n :: outerNodes rest := by
  obtain ⟨label, children⟩ := n
  have hn : label.kind.isCommand = true := hn
  rw [outerNodes, Node.outer, if_pos hn]
  rfl

theorem outerNodes_of_not_command {label : Label} {children : List Node}
    (hn : label.kind.isCommand = false) :
    outerNodes (⟨label, children⟩ :: rest) = ⟨label, children⟩ :: (outerNodes children ++ outerNodes rest) := by
  rw [outerNodes, Node.outer, if_neg (by rw [hn]; decide)]
  rfl

end

mutual

/-- The commands of a document are those among the nodes that are not below a command. -/
theorem map_commandsOf : ∀ (i : Nat) (ns : List Node),
    (commandsOf i ns).map (·.2) = (outerNodes ns).filter (·.kind.isCommand)
  | _, [] => by rw [commandsOf, outerNodes]; rfl
  | i, n :: rest => by
    rw [commandsOf, outerNodes, List.map_append, List.filter_append, map_commandsAt i n,
      map_commandsOf (i + 1) rest]

theorem map_commandsAt : ∀ (i : Nat) (n : Node),
    (commandsAt i n).map (·.2) = n.outer.filter (·.kind.isCommand)
  | i, ⟨label, children⟩ => by
    rw [commandsAt, Node.outer]
    cases hn : label.kind.isCommand with
    | true => simp [Node.kind, hn]
    | false =>
      rw [List.filter_cons_of_neg (by simp [Node.kind, hn])]
      simpa [Function.comp_def] using map_commandsOf 0 children

end

theorem itemsOf_eq (ns : List Node) :
    itemsOf ns = (outerNodes ns).filter fun n => n.kind.isCommand && !n.isMarker := by
  rw [itemsOf, map_commandsOf, List.filter_filter]
  exact List.filter_congr fun n _ => Bool.and_comm _ _

theorem mem_itemsOf {n : Node} {ns : List Node} :
    n ∈ itemsOf ns ↔ n ∈ outerNodes ns ∧ n.kind.isCommand = true ∧ n.isMarker = false := by
  rw [itemsOf_eq, List.mem_filter, Bool.and_eq_true, Bool.not_eq_true']

theorem itemsOf_append (ns ms : List Node) : itemsOf (ns ++ ms) = itemsOf ns ++ itemsOf ms := by
  rw [itemsOf_eq, itemsOf_eq, itemsOf_eq, outerNodes_append, List.filter_append]

section

variable {n : Node} {rest : List Node}

theorem itemsOf_of_command (hn : n.kind.isCommand = true) (hm : n.isMarker = false) :
    itemsOf (n :: rest) = n :: itemsOf rest := by
  rw [itemsOf_eq, outerNodes_of_command hn, List.filter_cons_of_pos (by simp [hn, hm]), itemsOf_eq]

theorem itemsOf_of_not_command {label : Label} {children : List Node}
    (hn : label.kind.isCommand = false) :
    itemsOf (⟨label, children⟩ :: rest) = itemsOf children ++ itemsOf rest := by
  rw [itemsOf_eq, outerNodes_of_not_command hn, List.filter_cons_of_neg (by simp [Node.kind, hn]),
    List.filter_append, itemsOf_eq, itemsOf_eq]

end

/-! ## What holds of all nodes that a pass can meet -/

/-- All nodes that a pass can meet are such. -/
def Throughout (P : Node → Prop) (ns : List Node) : Prop := ∀ m ∈ outerNodes ns, P m

namespace Throughout

variable {P : Node → Prop} {n : Node} {rest : List Node}

theorem nil : Throughout P [] := fun _ h => absurd h List.not_mem_nil

theorem head (h : Throughout P (n :: rest)) : P n := by
  refine h n ?_
  obtain ⟨label, children⟩ := n
  rw [outerNodes, Node.outer]
  exact .head _

theorem first (h : Throughout P (n :: rest)) : Throughout P [n] := fun m hm => by
  rw [outerNodes, outerNodes, List.append_nil] at hm
  exact h m (by rw [outerNodes]; exact List.mem_append_left _ hm)

theorem tail (h : Throughout P (n :: rest)) : Throughout P rest := fun m hm =>
  h m (by rw [outerNodes]; exact List.mem_append_right _ hm)

theorem inside {label : Label} {children : List Node} (hn : label.kind.isCommand = false)
    (h : Throughout P (⟨label, children⟩ :: rest)) : Throughout P children := fun m hm =>
  h m (by
    rw [outerNodes_of_not_command hn]
    exact List.mem_cons_of_mem _ (List.mem_append_left _ hm))

theorem append {ns ms : List Node} (h : Throughout P ns) (h' : Throughout P ms) :
    Throughout P (ns ++ ms) := by
  intro m hm
  rw [outerNodes_append, List.mem_append] at hm
  exact hm.elim (h m) (h' m)

theorem command (hn : n.kind.isCommand = true) (hp : P n) (h : Throughout P rest) :
    Throughout P (n :: rest) := by
  intro m hm
  rw [outerNodes_of_command hn, List.mem_cons] at hm
  rcases hm with rfl | hm
  · exact hp
  · exact h m hm

theorem node {label : Label} {children : List Node} (hn : label.kind.isCommand = false)
    (hp : P ⟨label, children⟩) (h : Throughout P children) (h' : Throughout P rest) :
    Throughout P (⟨label, children⟩ :: rest) := by
  intro m hm
  rw [outerNodes_of_not_command hn, List.mem_cons, List.mem_append] at hm
  rcases hm with rfl | hm | hm
  · exact hp
  · exact h m hm
  · exact h' m hm

theorem afterMarker (h : Throughout P (n :: rest)) : Throughout P (afterMarker n rest) := by
  cases rest with
  | nil => exact h.tail
  | cons sep more =>
    rw [Evomark.afterMarker]
    split
    · exact h.tail.tail
    · exact h.tail

end Throughout

/-! ## Separators of markers -/

/-- There is nothing below the separators that a pass can meet. -/
def SepsAreLeaves (ns : List Node) : Prop := Throughout (fun m => m.kind = .sep → m.children = []) ns

namespace SepsAreLeaves

variable {n : Node} {rest : List Node}

theorem command (hn : n.kind.isCommand = true) (h : SepsAreLeaves rest) : SepsAreLeaves (n :: rest) := by
  refine Throughout.command hn (fun hk => ?_) h
  rw [hk] at hn
  exact absurd hn (by decide)

/-- The separator behind a marker is a leaf, and no command. -/
theorem eq_of_isMarkerSep (h : SepsAreLeaves (n :: rest)) (hs : n.isMarkerSep = true) :
    ∃ label, n = ⟨label, []⟩ ∧ label.kind.isCommand = false := by
  have hk : n.kind = .sep := by
    simp only [Node.isMarkerSep, Bool.and_eq_true, beq_iff_eq] at hs
    exact hs.1
  obtain ⟨label, children⟩ := n
  obtain rfl : children = [] := h.head hk
  exact ⟨label, rfl, by rw [show label.kind = .sep from hk]; rfl⟩

theorem stripMarkers {ns : List Node} (h : SepsAreLeaves ns) : SepsAreLeaves (stripMarkers ns) := by
  fun_induction Evomark.stripMarkers ns with
  | case1 => exact h
  | case2 => exact h.tail
  | case3 _ _ _ _ _ ih => exact ih h.tail.tail
  | case4 _ _ _ _ _ ih => exact ih h.tail
  | case5 => exact h

theorem warningMarkers (warnings : List String) : SepsAreLeaves (warningMarkers warnings) := by
  unfold Evomark.warningMarkers
  split
  · exact Throughout.nil
  · exact command rfl (Throughout.node rfl (fun _ => rfl) .nil .nil)

theorem behindHalt (warnings : List String) {ns : List Node} (h : SepsAreLeaves ns) :
    SepsAreLeaves (behindHalt warnings ns) := by
  have hbehind := (warningMarkers warnings).append h.stripMarkers
  unfold Evomark.behindHalt
  simp only
  split
  · exact hbehind
  · exact command rfl hbehind

end SepsAreLeaves

section

variable {n : Node} {rest : List Node}

/-- A marker is not executed, and neither is anything below the separator behind it. -/
theorem itemsOf_of_marker (hm : n.isMarker = true) (h : SepsAreLeaves rest) :
    itemsOf (n :: rest) = itemsOf (afterMarker n rest) := by
  have hskip : itemsOf (n :: rest) = itemsOf rest := by
    rw [itemsOf_eq, outerNodes_of_command (isCommand_of_isMarker hm),
      List.filter_cons_of_neg (by simp [hm]), itemsOf_eq]
  rw [hskip]
  cases rest with
  | nil => rfl
  | cons sep more =>
    rw [afterMarker]
    split
    · rename_i hsep
      obtain ⟨label, rfl, hn⟩ := h.eq_of_isMarkerSep (Bool.and_eq_true_iff.1 hsep).2
      rw [itemsOf_of_not_command hn]
      rfl
    · rfl

theorem itemsOf_stripMarkers {ns : List Node} (h : SepsAreLeaves ns) :
    itemsOf (stripMarkers ns) = itemsOf ns := by
  fun_induction stripMarkers ns with
  | case1 => rfl
  | case2 n hm =>
    rw [itemsOf_of_marker hm h.tail]
    rfl
  | case3 n hm sep more hs ih =>
    rw [itemsOf_of_marker hm h.tail, ih h.tail.tail, afterMarker, if_pos hs]
  | case4 n hm sep more hs ih =>
    rw [itemsOf_of_marker hm h.tail, ih h.tail, afterMarker, if_neg hs]
  | case5 => rfl

theorem itemsOf_warningMarkers (warnings : List String) : itemsOf (warningMarkers warnings) = [] := by
  unfold warningMarkers
  split <;> rfl

theorem itemsOf_behindHalt (warnings : List String) {ns : List Node} (h : SepsAreLeaves ns) :
    itemsOf (behindHalt warnings ns) = itemsOf ns := by
  have hbehind : itemsOf (warningMarkers warnings ++ stripMarkers ns) = itemsOf ns := by
    rw [itemsOf_append, itemsOf_warningMarkers, List.nil_append, itemsOf_stripMarkers h]
  unfold behindHalt
  simp only
  split
  · exact hbehind
  · rw [itemsOf_of_marker rfl ((SepsAreLeaves.warningMarkers warnings).append h.stripMarkers), ← hbehind]
    cases warningMarkers warnings ++ stripMarkers ns <;> rfl

end

/-! ## A pass over the commands alone -/

section

variable {rules : Table ExecRule} {ns : List Node} (ms : List Node) {s : ExecState}

/-- A pass goes on behind commands that it has executed. -/
theorem runNodes_append_of_completed (h : ∀ n ∈ ns, n.kind.isCommand = true ∧ n.isMarker = false)
    (ho : (runNodes rules ns s).outcome = .completed) :
    (runNodes rules (ns ++ ms) s).state = (runNodes rules ms (runNodes rules ns s).state).state ∧
      (runNodes rules (ns ++ ms) s).outcome = (runNodes rules ms (runNodes rules ns s).state).outcome := by
  induction ns generalizing s with
  | nil =>
    rw [List.nil_append, runNodes]
    exact ⟨rfl, rfl⟩
  | cons n rest ih =>
    obtain ⟨⟨hn, hm⟩, hrest⟩ := List.forall_mem_cons.1 h
    rw [List.cons_append]
    cases hr : runStep rules n s with
    | error e => simp [runNodes_of_error hn hm hr] at ho
    | ok r =>
      obtain ⟨m, t⟩ := r
      cases ht : t.halted with
      | true => simp [runNodes_of_halted hn hm hr ht] at ho
      | false =>
        rw [runNodes_of_ok hn hm hr ht] at ho
        rw [runNodes_of_ok hn hm hr ht, runNodes_of_ok hn hm hr ht]
        exact ih hrest ho

/-- A pass that has ended among the first commands ends there, whatever stands behind them. -/
theorem runNodes_append_of_ended (h : ∀ n ∈ ns, n.kind.isCommand = true ∧ n.isMarker = false)
    (ho : (runNodes rules ns s).outcome ≠ .completed) :
    (runNodes rules (ns ++ ms) s).state = (runNodes rules ns s).state ∧
      (runNodes rules (ns ++ ms) s).outcome = (runNodes rules ns s).outcome := by
  induction ns generalizing s with
  | nil =>
    rw [runNodes] at ho
    exact absurd rfl ho
  | cons n rest ih =>
    obtain ⟨⟨hn, hm⟩, hrest⟩ := List.forall_mem_cons.1 h
    rw [List.cons_append]
    cases hr : runStep rules n s with
    | error e =>
      rw [runNodes_of_error hn hm hr, runNodes_of_error hn hm hr]
      exact ⟨rfl, rfl⟩
    | ok r =>
      obtain ⟨m, t⟩ := r
      cases ht : t.halted with
      | true =>
        rw [runNodes_of_halted hn hm hr ht, runNodes_of_halted hn hm hr ht]
        exact ⟨rfl, rfl⟩
      | false =>
        rw [runNodes_of_ok hn hm hr ht] at ho
        rw [runNodes_of_ok hn hm hr ht, runNodes_of_ok hn hm hr ht]
        exact ih hrest ho

theorem isItem_of_mem_itemsOf : ∀ n ∈ itemsOf ns, n.kind.isCommand = true ∧ n.isMarker = false :=
  fun _ hn => (mem_itemsOf.1 hn).2

end

/-- Over its commands alone a pass ends in the same state and with the same outcome. -/
theorem runNodes_itemsOf (rules : Table ExecRule) (ns : List Node) (s : ExecState)
    (h : SepsAreLeaves ns) :
    (runNodes rules (itemsOf ns) s).state = (runNodes rules ns s).state ∧
      (runNodes rules (itemsOf ns) s).outcome = (runNodes rules ns s).outcome := by
  revert h
  refine runNodes_induct rules (motive := fun ns s w => SepsAreLeaves ns →
      (runNodes rules (itemsOf ns) s).state = w.state ∧
        (runNodes rules (itemsOf ns) s).outcome = w.outcome)
    ?nil ?marker ?failed ?halted ?executed ?inside ?ended ns s
  case nil =>
    intro s _
    rw [show itemsOf [] = [] from rfl, runNodes]
    exact ⟨rfl, rfl⟩
  case marker =>
    intro n rest s hm ih h
    rw [itemsOf_of_marker hm h.tail]
    exact ih h.afterMarker
  case failed =>
    intro n rest s e hn hm hr _
    rw [itemsOf_of_command hn hm, runNodes_of_error hn hm hr]
    exact ⟨rfl, rfl⟩
  case halted =>
    intro n rest s m t hn hm hr ht _
    rw [itemsOf_of_command hn hm, runNodes_of_halted hn hm hr ht]
    exact ⟨rfl, rfl⟩
  case executed =>
    intro n rest s m t hn hm hr ht ih h
    rw [itemsOf_of_command hn hm, runNodes_of_ok hn hm hr ht]
    exact ih h.tail
  case inside =>
    intro label children rest s w hn hw ho ih ihrest h
    subst hw
    obtain ⟨hstate, houtcome⟩ := ih (h.inside hn)
    obtain ⟨hs, hout⟩ := runNodes_append_of_completed (itemsOf rest) isItem_of_mem_itemsOf
      (houtcome.trans ho)
    rw [itemsOf_of_not_command hn, hs, hout, hstate]
    exact ihrest h.tail
  case ended =>
    intro label children rest s w hn hw ho ih h
    subst hw
    obtain ⟨hstate, houtcome⟩ := ih (h.inside hn)
    obtain ⟨hs, hout⟩ := runNodes_append_of_ended (itemsOf rest) isItem_of_mem_itemsOf
      (by rw [houtcome]; exact ho)
    rw [itemsOf_of_not_command hn, hs, hout]
    exact ⟨hstate, houtcome⟩

/-- A pass leaves the commands that it found, but for results. -/
theorem itemsOf_runNodes (rules : Table ExecRule) (ns : List Node) (s : ExecState)
    (h : SepsAreLeaves ns) :
    SepsAreLeaves (runNodes rules ns s).nodes ∧
      (itemsOf (runNodes rules ns s).nodes).map Node.plain = (itemsOf ns).map Node.plain := by
  have hleaf : ∀ {children s w}, runNodes rules children s = w → children = [] → w.nodes = [] := by
    rintro _ s w rfl rfl
    rw [runNodes]
  revert h
  refine runNodes_induct rules (motive := fun ns _ w => SepsAreLeaves ns →
      SepsAreLeaves w.nodes ∧ (itemsOf w.nodes).map Node.plain = (itemsOf ns).map Node.plain)
    ?nil ?marker ?failed ?halted ?executed ?inside ?ended ns s
  case nil => exact fun _ h => ⟨h, rfl⟩
  case marker =>
    intro n rest s hm ih h
    rw [itemsOf_of_marker hm h.tail]
    exact ih h.afterMarker
  case failed =>
    intro n rest s e hn hm hr h
    refine ⟨.command hn (SepsAreLeaves.stripMarkers h.tail), ?_⟩
    rw [itemsOf_of_command hn hm, itemsOf_of_command hn hm, itemsOf_stripMarkers h.tail]
  case halted =>
    intro n rest s m t hn hm hr ht h
    obtain ⟨hn', hm'⟩ := isCommand_of_runStep hn hm hr
    refine ⟨.command hn' (SepsAreLeaves.behindHalt _ h.tail), ?_⟩
    rw [itemsOf_of_command hn hm, itemsOf_of_command hn' hm', itemsOf_behindHalt _ h.tail, List.map_cons,
      List.map_cons, (plain_of_runStep hn hr).2]
  case executed =>
    intro n rest s m t hn hm hr ht ih h
    obtain ⟨hn', hm'⟩ := isCommand_of_runStep hn hm hr
    obtain ⟨hseps, hitems⟩ := ih h.tail
    refine ⟨.command hn' ((SepsAreLeaves.warningMarkers _).append hseps), ?_⟩
    rw [itemsOf_of_command hn hm, itemsOf_of_command hn' hm', itemsOf_append, itemsOf_warningMarkers,
      List.nil_append, List.map_cons, List.map_cons, (plain_of_runStep hn hr).2, hitems]
  case inside =>
    intro label children rest s w hn hw ho ih ihrest h
    obtain ⟨hseps, hitems⟩ := ih (h.inside hn)
    obtain ⟨hseps', hitems'⟩ := ihrest h.tail
    refine ⟨.node hn (fun hk => hleaf hw (h.head hk)) hseps hseps', ?_⟩
    rw [itemsOf_of_not_command hn, itemsOf_of_not_command hn, List.map_append, List.map_append, hitems,
      hitems']
  case ended =>
    intro label children rest s w hn hw ho ih h
    obtain ⟨hseps, hitems⟩ := ih (h.inside hn)
    refine ⟨.node hn (fun hk => hleaf hw (h.head hk)) hseps h.tail, ?_⟩
    rw [itemsOf_of_not_command hn, itemsOf_of_not_command hn, List.map_append, List.map_append, hitems]

end Evomark
