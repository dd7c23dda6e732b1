import Evomark.Document.Printer
import Evomark.Proofs.Exec.History
/-!
# What passes never change

`Node.erase` takes away all that passes may put into a document or take out of it: markers and
separators outside commands, and results. What remains is the same after any passes
(`erase_afterPasses`), since it depends on the bare nodes only. Without markers the bare document has the
same text as the document, for results are not printed (`printWith_bare`); so passes that leave no
markers do not change the text of a document that has none.
-/

namespace Evomark

/-- A use of a variable or a command, below which passes put the literals of results. -/
def Kind.showsResult : Kind → Bool
  | varUse | cmd => true
  | _ => false

mutual

/-- Nodes, `outside` of commands or not, without the markers and separators outside of commands and,
if they are below a node that `shows` a result, without literals. -/
def eraseAll (outside shows : Bool) : List Node → List Node
  | [] => []
  | n :: rest =>
    if outside && (n.isMarker || n.kind == .sep) || shows && n.kind == .literal then
      eraseAll outside shows rest
    else n.eraseFrom outside :: eraseAll outside shows rest

/-- A node, `outside` of commands or not, with what is below it erased. -/
def Node.eraseFrom (outside : Bool) : Node → Node
  | ⟨label, children⟩ =>
    ⟨label, eraseAll (outside && !label.kind.isCommand) label.kind.showsResult children⟩

end

/-- A document without markers, separators outside of commands, and results. -/
def Node.erase (document : Node) : Node := document.withChildren (eraseAll true false document.children)

section

variable {n : Node} {rest : List Node}

theorem eraseAll_filter_literal (outside : Bool) (ns : List Node) :
    eraseAll outside true (ns.filter (·.kind != .literal)) = eraseAll outside true ns := by
  induction ns with
  | nil => rfl
  | cons n rest ih =>
    cases hk : n.kind == .literal with
    | true =>
      rw [List.filter_cons_of_neg (by simp [bne, hk]), ih, eraseAll, if_pos (by simp [hk])]
    | false =>
      rw [List.filter_cons_of_pos (by simp [bne, hk]), eraseAll, eraseAll, ih]

/-- A result is erased. -/
theorem eraseFrom_plain (outside : Bool) (hn : n.kind.isCommand = true) :
    n.plain.eraseFrom outside = n.eraseFrom outside := by
  obtain ⟨label, children⟩ := n
  have hn : label.kind.isCommand = true := hn
  unfold Node.plain
  split
  · rfl
  · rename_i hk
    have hshows : label.kind.showsResult = true := by
      cases h : label.kind <;> rw [h] at hn <;> first
        | rfl
        | exact absurd hn (by decide)
        | exact absurd h hk
    rw [Node.withChildren, Node.eraseFrom, Node.eraseFrom, hshows, eraseAll_filter_literal]

theorem eraseAll_of_marker (hm : n.isMarker = true) :
    eraseAll true false (n :: rest) = eraseAll true false (afterMarker n rest) := by
  rw [eraseAll, if_pos (by simp [hm])]
  cases rest with
  | nil => rfl
  | cons sep more =>
    rw [afterMarker]
    split
    · rename_i h
      rw [Bool.and_eq_true, Node.isMarkerSep, Bool.and_eq_true] at h
      rw [eraseAll, if_pos (by simp [h.2.1])]
    · rfl

end

/-- What is erased is no part of the bare nodes. -/
theorem eraseAll_bareNodes (ns : List Node) : eraseAll true false (bareNodes ns) = eraseAll true false ns := by
  cases ns with
  | nil => rfl
  | cons n rest =>
    by_cases hn : n.kind.isCommand = true
    · by_cases hm : n.isMarker = true
      · have := sizeOf_afterMarker_le n rest
        rw [bareNodes_of_marker hm, eraseAll_of_marker hm, eraseAll_bareNodes (afterMarker n rest)]
      · rw [bareNodes_of_command hn (by simpa using hm), eraseAll, eraseAll, eraseAll_bareNodes rest,
          eraseFrom_plain true hn, n.isMarker_plain, n.plain_kind]
    · obtain ⟨label, children⟩ := n
      have hn : label.kind.isCommand = false := by simpa [Node.kind] using hn
      have hshows : label.kind.showsResult = false := by cases h : label.kind <;> rw [h] at hn <;> first | rfl | cases hn
      rw [bareNodes_of_not_command hn, eraseAll, eraseAll, eraseAll_bareNodes rest, Node.eraseFrom,
        Node.eraseFrom, hn, hshows, Bool.not_false, Bool.and_self, eraseAll_bareNodes children]
      rfl
termination_by sizeOf ns
decreasing_by
  all_goals
    simp only [List.cons.sizeOf_spec, Node.mk.sizeOf_spec]
    omega

/-! ## The text of a document without markers -/

/-- There are no markers among the commands of some nodes. -/
def Unmarked (ns : List Node) : Prop := Throughout (·.isMarker = false) ns

theorem unmarked_iff (document : Node) :
    Unmarked document.children ↔ ∀ command ∈ commandList document, command.2.isMarker = false := by
  have hmem := map_commandsOf 0 document.children
  constructor
  · intro h command hc
    have hmap : command.2 ∈ (commandList document).map (·.2) := List.mem_map.2 ⟨command, hc, rfl⟩
    rw [commandList, hmem] at hmap
    exact h _ (List.mem_filter.1 hmap).1
  · intro h m hm
    cases hn : m.kind.isCommand with
    | true =>
      have hmap : m ∈ (commandList document).map (·.2) := by
        rw [commandList, hmem]
        exact List.mem_filter.2 ⟨hm, hn⟩
      obtain ⟨command, hc, rfl⟩ := List.mem_map.1 hmap
      exact h command hc
    | false =>
      refine Bool.eq_false_iff.2 fun hmarker => ?_
      rw [isCommand_of_isMarker hmarker] at hn
      cases hn

namespace Node

/-- A node in bare nodes without markers. -/
def bared (n : Node) : Node := if n.kind.isCommand then n.plain else n.bare

theorem bared_of_command {n : Node} (hn : n.kind.isCommand = true) : n.bared = n.plain := if_pos hn

theorem bared_of_not_command {label : Label} {children : List Node} (hn : label.kind.isCommand = false) :
    (Node.mk label children).bared = ⟨label, bareNodes children⟩ := by
  rw [bared, if_neg (by rw [kind, hn]; decide), bare]

theorem bareNodes_of_unmarked {n : Node} {rest : List Node} (hm : n.isMarker = false) :
    bareNodes (n :: rest) = n.bared :: bareNodes rest := by
  cases hn : n.kind.isCommand with
  | true => rw [bareNodes_of_command hn hm, bared_of_command hn]
  | false =>
    obtain ⟨label, children⟩ := n
    rw [bareNodes_of_not_command hn, bared_of_not_command hn]

theorem label_bared (n : Node) : n.bared.label = n.label := by
  unfold bared
  split
  · exact n.plain_label
  · cases n
    rfl

theorem kind_bared (n : Node) : n.bared.kind = n.kind := congrArg Label.kind n.label_bared

/-- Results are not among the clauses of a command. -/
theorem putClauses_filter_literal (unit : List Char) (level : Nat) (ns : List Node) (ink : Ink) :
    putClauses unit level (ns.filter (·.kind != .literal)) ink = putClauses unit level ns ink := by
  induction ns generalizing ink with
  | nil => rfl
  | cons n rest ih =>
    cases hk : n.kind == .literal with
    | true =>
      have hclause : isClause n.kind = false := by rw [eq_of_beq hk]; rfl
      rw [List.filter_cons_of_neg (by simp [bne, hk]), ih, putClauses, hclause]
      rfl
    | false => rw [List.filter_cons_of_pos (by simp [bne, hk]), putClauses, putClauses, ih]

theorem putClauses_plain (n : Node) (unit : List Char) (level : Nat) (ink : Ink) :
    putClauses unit level n.plain.children ink = putClauses unit level n.children ink := by
  unfold plain
  split
  · rfl
  · exact putClauses_filter_literal unit level n.children ink

/-- A command is printed without its results. -/
theorem putNode_plain {n : Node} (hn : n.kind.isCommand = true) (unit : List Char) (level : Nat)
    (prev : Option Kind) (ink : Ink) : putNode unit level prev n.plain ink = putNode unit level prev n ink := by
  obtain ⟨label, children⟩ := n
  have hn : label.kind.isCommand = true := hn
  unfold plain
  split
  · rfl
  · rename_i hk
    cases h : label.kind <;> rw [h] at hn <;> try exact absurd hn (by decide)
    case varAssign => exact absurd h hk
    case varUse => simp only [withChildren, putNode, h]
    case cmd => simp only [withChildren, putNode, h, putClauses_filter_literal]

theorem putCalls_cons (unit : List Char) (level : Nat) (wanted : Kind → Bool) (n : Node) (rest : List Node)
    (ink : Ink) : putCalls unit level wanted (n :: rest) ink =
      putCalls unit level wanted rest (if wanted n.kind then
        putClauses unit level n.children ((ink.put [sigil n.kind]).put n.content.toList) else ink) := by
  cases n
  rw [putCalls]
  rfl

mutual

theorem putNode_bared (unit : List Char) (level : Nat) (prev : Option Kind) (ink : Ink) :
    ∀ n : Node, Unmarked [n] → putNode unit level prev n.bared ink = putNode unit level prev n ink
  | ⟨label, children⟩, h => by
    cases hn : label.kind.isCommand with
    | true =>
      have hn : (Node.mk label children).kind.isCommand = true := hn
      rw [bared_of_command hn]
      exact putNode_plain hn unit level prev ink
    | false =>
      have h := h.inside hn
      have hnodes := fun level => funext (putNodes_bareNodes unit level none · children h)
      have hclauses := fun level => funext (putClauses_bareNodes unit level · children h)
      have hcalls := fun wanted => funext (putCalls_bareNodes unit level wanted · children h)
      rw [bared_of_not_command hn]
      cases hk : label.kind <;> rw [hk] at hn <;> try exact absurd hn (by decide)
      all_goals simp only [putNode, hk, hnodes, hclauses, hcalls]

theorem putNodes_bareNodes (unit : List Char) (level : Nat) (prev : Option Kind) (ink : Ink) :
    ∀ ns : List Node, Unmarked ns → putNodes unit level prev (bareNodes ns) ink = putNodes unit level prev ns ink
  | [], _ => rfl
  | n :: rest, h => by
    rw [bareNodes_of_unmarked h.head, putNodes, putNodes, kind_bared,
      putNode_bared unit level prev ink n h.first, putNodes_bareNodes unit level _ _ rest h.tail]

theorem putClauses_bareNodes (unit : List Char) (level : Nat) (ink : Ink) :
    ∀ ns : List Node, Unmarked ns → putClauses unit level (bareNodes ns) ink = putClauses unit level ns ink
  | [], _ => rfl
  | n :: rest, h => by
    rw [bareNodes_of_unmarked h.head, putClauses, putClauses, kind_bared,
      putNode_bared unit level none ink n h.first, putClauses_bareNodes unit level _ rest h.tail]

theorem putCalls_bareNodes (unit : List Char) (level : Nat) (wanted : Kind → Bool) (ink : Ink) :
    ∀ ns : List Node, Unmarked ns →
      putCalls unit level wanted (bareNodes ns) ink = putCalls unit level wanted ns ink
  | [], _ => rfl
  | ⟨label, children⟩ :: rest, h => by
    have hclauses : ∀ ink, putClauses unit level (Node.mk label children).bared.children ink =
        putClauses unit level children ink := by
      intro ink
      cases hn : label.kind.isCommand with
      | true =>
        have hn : (Node.mk label children).kind.isCommand = true := hn
        rw [bared_of_command hn, putClauses_plain]
      | false =>
        rw [bared_of_not_command hn]
        exact putClauses_bareNodes unit level ink children (h.inside hn)
    rw [bareNodes_of_unmarked h.head, putCalls_cons, putCalls_cons, kind_bared, hclauses,
      content, label_bared, putCalls_bareNodes unit level wanted _ rest h.tail]
    rfl

end

/-- Without markers, the bare document has the text of the document. -/
theorem printWith_bare {document : Node} (h : Unmarked document.children) (unit : String) :
    document.bare.printWith unit = document.printWith unit := by
  obtain ⟨label, children⟩ := document
  unfold printWith
  exact congrArg (fun ink => String.ofList ink.reverse) (putNodes_bareNodes _ 0 none [] children h)

end Node

/-! ## Any passes -/

theorem erase_bare (document : Node) : document.bare.erase = document.erase := by
  obtain ⟨label, children⟩ := document
  exact congrArg (Node.mk label) (eraseAll_bareNodes children)

/-- Passes change nothing of a document but markers, separators outside of commands, and results. If
there are no markers before and after them, the text is the same. -/
theorem erase_afterPasses (rules : Table ExecRule) (document : Node) (passes : List Context) :
    let left := afterPasses rules document passes
    left.erase = document.erase ∧
      ((∀ command ∈ commandList document, command.2.isMarker = false) →
        (∀ command ∈ commandList left, command.2.isMarker = false) →
        ∀ unit, left.printWith unit = document.printWith unit) := by
  intro left
  have hbare : left.bare = document.bare := bare_afterPasses rules document passes
  refine ⟨?_, fun h h' unit => ?_⟩
  · rw [← erase_bare left, hbare, erase_bare]
  · rw [← Node.printWith_bare ((unmarked_iff left).2 h') unit, hbare,
      Node.printWith_bare ((unmarked_iff document).2 h) unit]

end Evomark
