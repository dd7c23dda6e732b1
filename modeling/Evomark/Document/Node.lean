import Evomark.Json
import Evomark.Text.Blank
/-!
# Documents

A document is a tree of nodes whose children stand in reading order, which is also the order of
execution and of printing. A `Node` is a `Label` over its children; the label says what the node
is (`Kind`), carries its text and its data, and says where in the source it was read and how its
body is laid out.

`Node.outline` writes a document with one node a line, each below its parent and two spaces
further in, and `Node.preorder` lists the labels with their depths.
-/

namespace Evomark

/-- What a node is. -/
inductive Kind
  | root
  | func
  | funcParam
  | funcBody
  | body
  | text
  | literal
  | sep
  | ref
  | cmd
  | varUse
  | varAssign
  | warning
  | error
  | configDict
  deriving DecidableEq, Repr, Inhabited

namespace Kind

/-- The name of a kind. -/
def name : Kind → String
  | root => "root"
  | func => "func"
  | funcParam => "func_param"
  | funcBody => "func_body"
  | body => "body"
  | text => "text"
  | literal => "literal"
  | sep => "sep"
  | ref => "ref"
  | cmd => "cmd"
  | varUse => "var_use"
  | varAssign => "var_assign"
  | warning => "warning"
  | error => "error"
  | configDict => "config_dict"

/-- All kinds. -/
def all : List Kind :=
  [root, func, funcParam, funcBody, body, text, literal, sep, ref, cmd, varUse, varAssign, warning,
    error, configDict]

/-- The kind of a name. -/
def ofName? (name : String) : Option Kind := all.find? (·.name == name)

/-- A command, or a use or an assignment of a variable: what an execution runs. -/
def isCommand : Kind → Bool
  | varUse | cmd | varAssign => true
  | _ => false

/-- A body of a function or of a command. -/
def isBody : Kind → Bool
  | body | funcBody => true
  | _ => false

end Kind

/-- How a body is laid out when it is printed. -/
inductive Layout
  /-- Between braces, on one line. -/
  | inline
  /-- Between braces, the children indented on lines of their own. -/
  | block
  /-- Without braces, the only child printed in place of the body. -/
  | directChild
  /-- Between fences of so many equality signs. -/
  | code (opening closing : Nat)
  deriving DecidableEq, Repr, Inhabited

/-- The bytes of a source from `start` up to `stop`. -/
structure Span where
  start : Nat
  stop : Nat
  deriving DecidableEq, Repr, Inhabited

/-- Everything of a node but its children. -/
structure Label where
  kind : Kind
  content : String := ""
  /-- The data of the node. -/
  value : Option Json := none
  /-- Where the inside of a clause stands in the source. -/
  span : Option Span := none
  layout : Option Layout := none
  /-- The place of the node in the `Tree` it was taken from, if any. -/
  slot : Option Nat := none
  deriving Inhabited

/-- A node with its children. -/
structure Node where
  label : Label
  children : List Node
  deriving Inhabited

namespace Label

/-- How many line feeds a separator stands for. -/
def sepCount (label : Label) : Nat := (label.value.bind Json.natural?).getD 1

/-- A line feed becomes a backslash and a letter. -/
def oneLine (cs : List Char) : List Char :=
  cs.flatMap fun c => if c = '\n' then ['\\', 'n'] else [c]

/-- The label in one line: its kind and its text. -/
def line (label : Label) : String :=
  if label.content.isEmpty then label.kind.name
  else String.ofList (oneLine (label.kind.name.toList ++ ' ' :: label.content.toList))

end Label

namespace Node

/-- A node without children. -/
def leaf (label : Label) : Node := ⟨label, []⟩

/-- A document of the given nodes. -/
def root (children : List Node) : Node := ⟨{ kind := .root }, children⟩

/-- The kind of a node. -/
def kind (n : Node) : Kind := n.label.kind

/-- The text of a node. -/
def content (n : Node) : String := n.label.content

/-- The node with other children. -/
def withChildren (n : Node) (children : List Node) : Node := ⟨n.label, children⟩

/-- The first body among the children. -/
def firstBody? (n : Node) : Option Node := n.children.find? (·.kind.isBody)

mutual

/-- The labels of a node and of all below it with their depths, parents before children. -/
def preorderFrom (depth : Nat) : Node → List (Nat × Label)
  | ⟨label, children⟩ => (depth, label) :: preorderAll (depth + 1) children

/-- `preorderFrom` of each node of a list. -/
def preorderAll (depth : Nat) : List Node → List (Nat × Label)
  | [] => []
  | n :: rest => preorderFrom depth n ++ preorderAll depth rest

end

/-- The labels of two lists of nodes stand one after the other. -/
theorem preorderAll_append (depth : Nat) (ns ms : List Node) :
    preorderAll depth (ns ++ ms) = preorderAll depth ns ++ preorderAll depth ms := by
  induction ns with
  | nil => simp [preorderAll]
  | cons n rest ih => simp [preorderAll, ih]

/-- The labels of a document with their depths, parents before children. -/
def preorder (n : Node) : List (Nat × Label) := preorderFrom 0 n

/-- The line of a label at a depth. -/
def outlineLine (depth : Nat) (label : Label) : List Char :=
  List.replicate (2 * depth) ' ' ++ label.line.toList ++ ['\n']

/-- A document with one node a line, each two spaces further in than its parent. -/
def outline (n : Node) : String :=
  String.ofList (n.preorder.flatMap fun (depth, label) => outlineLine depth label)

end Node

end Evomark
