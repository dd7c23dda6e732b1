import Evomark.Document.Printer
import Evomark.Proofs.Text.Lines
/-!
# What is written for a document

The printer adds to what has been written, and looks at the end of that for the space before a node.
Here the text of a node is given by itself (`nodeText`), and that of a list of nodes by how the line
stands in which it starts (`flowText`, `Edge`). `Proofs.Document.Printing` shows that this is what
is printed.
-/

namespace Evomark

/-- How a line stands before a node is written. -/
inductive Edge
  /-- No space is needed: nothing has been written, or an opening brace. -/
  | opened
  /-- The line has just begun, and its indentation is still to be written. -/
  | begun
  /-- A space is needed. -/
  | filled
  deriving DecidableEq

namespace Node

/-- What is written before a node for how the line stands. -/
def edgeText (indent : List Char) : Edge → List Char
  | .opened => []
  | .begun => indent
  | .filled => [' ']

/-- What is written before a text or another node, behind a node of kind `prev`. -/
def gapText (indent : List Char) (prev : Option Kind) (edge : Edge) (n : Node) : List Char :=
  if n.kind = .text ∧ prev = some .text then '\n' :: '\n' :: indent
  else if n.kind = .text ∧ prev = some .varUse ∧ n.content.toList.head? = some '=' then '\n' :: indent
  else edgeText indent edge

/-- How the line stands behind a node. -/
def edgeBehind (n : Node) : Edge :=
  match n.kind with
  | .text | .literal => if n.content.toList.getLast? = some '\x7b' then .opened else .filled
  | _ => .filled

/-- The line feeds of a separator; where a line has just begun there is one more. -/
def breaks (edge : Edge) (count : Nat) : List Char :=
  List.replicate (if edge = .begun then 1 else count) '\n'

/-- What stands between the delimiters of a body. `flow` gives the text of its children at a level. -/
def insideText (unit : List Char) (level : Nat) (label : Label) (flow : Nat → Edge → List Char) :
    List Char :=
  let raw := label.content.toList
  if raw.isEmpty then
    match label.layout.getD .inline with
    | .block =>
      Text.trimEnd ('\n' :: flow (level + 1) .begun) ++ '\n' :: indentation unit level
    | .code .. => flow level .filled
    | _ => flow level .opened
  else raw

/-- The inside of a body between its delimiters. -/
def delimited (layout : Layout) (inside : List Char) : List Char :=
  match layout with
  | .code opening closing =>
    List.replicate opening '=' ++ '>' :: inside ++ List.replicate closing '=' ++ ['|']
  | _ => '\x7b' :: inside ++ ['\x7d']

mutual

/-- The text of a node. -/
def nodeText (unit : List Char) (level : Nat) : Node → List Char
  | ⟨label, children⟩ =>
    let name := label.content.toList
    match label.kind with
    | .text | .literal => Text.indented (indentation unit level) name
    | .func => '#' :: name ++ clausesText unit level children
    | .cmd => '$' :: name ++ clausesText unit level children
    | .varUse => '%' :: name
    | .varAssign => '%' :: name ++ [' ', '=', ' '] ++ callText unit level children
    | .ref => '@' :: name ++ ['='] ++ callText unit level children
    | .funcParam => '(' :: paramText label ++ [')']
    | .body | .funcBody =>
      if label.layout = some .directChild then callText unit level children
      else
        delimited (label.layout.getD .inline) <|
          insideText unit level label fun level edge => flowText unit level none edge children
    | _ => []

/-- The text of the nodes of a body, the first behind a node of kind `prev`. -/
def flowText (unit : List Char) (level : Nat) (prev : Option Kind) (edge : Edge) :
    List Node → List Char
  | [] => if edge = .begun then indentation unit level else []
  | n :: rest =>
    if n.kind = .sep then
      breaks edge n.label.sepCount ++ flowText unit level (some .sep) .begun rest
    else if n.kind = .configDict then flowText unit level (some .configDict) edge rest
    else
      gapText (indentation unit level) prev edge n ++ nodeText unit level n
        ++ flowText unit level (some n.kind) n.edgeBehind rest

/-- The text of the clauses among the nodes. -/
def clausesText (unit : List Char) (level : Nat) : List Node → List Char
  | [] => []
  | n :: rest =>
    (if isClause n.kind then nodeText unit level n else []) ++ clausesText unit level rest

/-- The text of a call that stands alone. -/
def callText (unit : List Char) (level : Nat) : List Node → List Char
  | [] => []
  | n :: _ => nodeText unit level n

end

/-- The indentation is made of the characters of its unit. -/
theorem mem_of_mem_indentation {unit : List Char} {level : Nat} {c : Char}
    (h : c ∈ indentation unit level) : c ∈ unit := by
  simp only [indentation, Text.times, List.mem_flatten, List.mem_replicate] at h
  obtain ⟨copy, ⟨-, rfl⟩, h⟩ := h
  exact h

theorem ne_of_isBody {kind other : Kind} (h : kind.isBody = true) (ho : other.isBody = false) :
    kind ≠ other := by
  rintro rfl
  rw [h] at ho
  exact Bool.noConfusion ho

theorem isClause_of_isBody {kind : Kind} (h : kind.isBody = true) : isClause kind = true := by
  cases kind <;> first | rfl | exact h

section

variable {label : Label} (unit : List Char) (level : Nat) (children rest : List Node)

theorem clausesText_of_isClause (h : isClause label.kind = true) :
    clausesText unit level (⟨label, children⟩ :: rest) =
      nodeText unit level ⟨label, children⟩ ++ clausesText unit level rest := by
  rw [clausesText]
  exact congrArg (· ++ _) (if_pos h)

theorem clausesText_of_result (h : label.kind = .literal) :
    clausesText unit level (⟨label, children⟩ :: rest) = clausesText unit level rest := by
  rw [clausesText]
  exact congrArg (· ++ _) (if_neg (show ¬ isClause label.kind = true by rw [h]; decide))

/-- The text of a body. -/
theorem nodeText_of_isBody (h : label.kind.isBody = true) :
    nodeText unit level ⟨label, children⟩ =
      if label.layout = some .directChild then callText unit level children
      else delimited (label.layout.getD .inline) <|
        insideText unit level label fun level edge => flowText unit level none edge children := by
  unfold nodeText
  cases hk : label.kind <;> rw [hk] at h <;> first | rfl | exact absurd h (by decide)

theorem nodeText_of_param (h : label.kind = .funcParam) :
    nodeText unit level ⟨label, children⟩ = '(' :: paramText label ++ [')'] := by
  unfold nodeText
  rw [h]

end

theorem nodeText_of_run (unit : List Char) (level : Nat) {n : Node}
    (h : n.kind = .text ∨ n.kind = .literal) :
    nodeText unit level n = Text.indented (indentation unit level) n.content.toList := by
  obtain ⟨label, children⟩ := n
  rw [nodeText]
  rcases h with h | h <;>
  · have h : label.kind = _ := h
    rw [h]
    rfl

theorem edgeBehind_of_run {n : Node} (h : n.kind = .text ∨ n.kind = .literal) :
    n.edgeBehind = if n.content.toList.getLast? = some '\x7b' then .opened else .filled := by
  unfold edgeBehind
  rcases h with h | h <;> rw [h]

theorem edgeBehind_of_call {n : Node} (h : n.kind ≠ .text ∧ n.kind ≠ .literal) :
    n.edgeBehind = .filled := by
  unfold edgeBehind
  split
  · exact absurd ‹_› h.1
  · exact absurd ‹_› h.2
  · rfl

end Node

end Evomark
