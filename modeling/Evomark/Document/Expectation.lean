import Evomark.Document.Node
import Evomark.Text.Quoted
/-!
# Expectations on a document

An `Expectation` is a statement about one node, which is found by following child indices from the
root. `Node.failure?` says what does not hold, with the way to the node in front. Two documents
have the same shape when their outlines are equal.
-/

namespace Evomark

/-- What is expected of a node. -/
inductive Expectation
  | kind (expected : Kind)
  | content (expected : String)
  | value (expected : Json)
  | layout (expected : Layout)
  | childCount (expected : Nat)
  | childKinds (expected : List Kind)

namespace Node

/-- The name of the root in failures. -/
def rootName : String := "root"

/-- The name of a child in failures, given that of its parent. -/
def childName (parent : String) (index : Nat) : String :=
  parent ++ ".children[" ++ toString index ++ "]"

/-- The children, one line each, in brackets. -/
def childSummary (n : Node) : String :=
  "[" ++ String.intercalate ", " (n.children.map (·.label.line)) ++ "]"

/-- What does not hold of a node that is named `name`. -/
def failureAt? (name : String) (n : Node) : Expectation → Option String
  | .kind expected =>
    if n.kind = expected then none
    else some (name ++ ": expected " ++ expected.name ++ " node, found " ++ n.kind.name)
  | .content expected =>
    if n.content = expected then none
    else some (name ++ ": expected content " ++ Text.quoted expected ++ ", found "
      ++ Text.quoted n.content)
  | .value expected =>
    match n.label.value with
    | some found => if found.same expected then none else some (name ++ ": unexpected content_obj")
    | none => some (name ++ ": unexpected content_obj")
  | .layout expected =>
    if n.label.layout = some expected then none else some (name ++ ": unexpected layout")
  | .childCount expected =>
    if n.children.length = expected then none
    else some (name ++ ": expected " ++ toString expected ++ " children, found "
      ++ toString n.children.length ++ ": " ++ n.childSummary)
  | .childKinds expected =>
    if n.children.map (·.kind) = expected then none else some (name ++ ": unexpected child kinds")

/-- What does not hold of the node that child indices lead to from a node that is named `name`. -/
def failureBelow? (name : String) (n : Node) : List Nat → Expectation → Option String
  | [], expectation => n.failureAt? name expectation
  | index :: path, expectation =>
    match n.children[index]? with
    | some child => child.failureBelow? (childName name index) path expectation
    | none =>
      some (name ++ ": child index " ++ toString index ++ " out of bounds (node has "
        ++ toString n.children.length ++ " children)")

/-- What does not hold of the node that child indices lead to from the root. -/
def failure? (document : Node) (path : List Nat) (expectation : Expectation) : Option String :=
  document.failureBelow? rootName path expectation

/-- How the outlines of two documents differ, if they do. -/
def shapeDifference? (actual expected : Node) : Option String :=
  if actual.outline = expected.outline then none
  else some ("Trees differ\n--- actual\n" ++ actual.outline ++ "--- expected\n" ++ expected.outline)

end Node

end Evomark
