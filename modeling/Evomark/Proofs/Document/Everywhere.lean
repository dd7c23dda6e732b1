import Evomark.Document.Node
/-!
# What holds everywhere in a document

A node below another is found by the child indices that lead to it (`Node.at?`). `Node.subtrees` lists a node
and all nodes below it, and `Everywhere P` says that all of some nodes, and all nodes below them, satisfy `P`.
Documents are put together of nodes side by side and nodes below others; what holds everywhere in the parts
holds everywhere in the whole.
-/

namespace Evomark

namespace Node

/-- The node at a place, given by the child indices that lead to it. -/
def at? (n : Node) : List Nat → Option Node
  | [] => some n
  | i :: place => n.children[i]?.bind fun m => m.at? place

theorem at?_append (n : Node) (place below : List Nat) :
    n.at? (place ++ below) = (n.at? place).bind fun m => m.at? below := by
  induction place generalizing n with
  | nil => rfl
  | cons i place ih => simp only [List.cons_append, at?, ih, Option.bind_assoc]

mutual

/-- The node and all below it, parents before children. -/
def subtrees : Node → List Node
  | ⟨label, children⟩ => ⟨label, children⟩ :: subtreesAll children

/-- `subtrees` of each node of a list. -/
def subtreesAll : List Node → List Node
  | [] => []
  | n :: rest => subtrees n ++ subtreesAll rest

end

theorem subtreesAll_append (ns ms : List Node) : subtreesAll (ns ++ ms) = subtreesAll ns ++ subtreesAll ms := by
  induction ns with
  | nil => rfl
  | cons n rest ih => rw [List.cons_append, subtreesAll, subtreesAll, ih, List.append_assoc]

end Node

/-- All of the nodes and all nodes below them are such. -/
def Everywhere (P : Node → Prop) (ns : List Node) : Prop := ∀ n ∈ Node.subtreesAll ns, P n

namespace Everywhere

variable {P Q : Node → Prop}

theorem nil : Everywhere P [] := fun _ h => absurd h List.not_mem_nil

theorem append {ns ms : List Node} (h : Everywhere P ns) (h' : Everywhere P ms) : Everywhere P (ns ++ ms) := by
  intro n hn
  rw [Node.subtreesAll_append, List.mem_append] at hn
  exact hn.elim (h n) (h' n)

theorem node {label : Label} {children : List Node} (hp : P ⟨label, children⟩) (h : Everywhere P children) :
    Everywhere P [⟨label, children⟩] := by
  intro n hn
  rw [Node.subtreesAll, Node.subtreesAll, List.append_nil, Node.subtrees, List.mem_cons] at hn
  rcases hn with rfl | hn
  · exact hp
  · exact h n hn

theorem leaf {label : Label} (hp : P (.leaf label)) : Everywhere P [.leaf label] := node hp nil

theorem flatMap {α : Type} {f : α → List Node} {items : List α} (h : ∀ item ∈ items, Everywhere P (f item)) :
    Everywhere P (items.flatMap f) := by
  induction items with
  | nil => exact nil
  | cons item rest ih =>
    obtain ⟨hitem, hrest⟩ := List.forall_mem_cons.1 h
    exact hitem.append (ih hrest)

theorem leaves {ns : List Node} (h : ∀ n ∈ ns, n.children = [] ∧ P n) : Everywhere P ns := by
  rw [← List.flatMap_singleton' ns]
  refine flatMap fun n hn => ?_
  obtain ⟨label, children⟩ := n
  obtain ⟨rfl, hp⟩ : children = [] ∧ P ⟨label, children⟩ := h _ hn
  exact leaf hp

theorem mono {ns : List Node} (h : Everywhere P ns) (hpq : ∀ n, P n → Q n) : Everywhere Q ns :=
  fun n hn => hpq n (h n hn)

end Everywhere

end Evomark
