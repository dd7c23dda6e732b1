import Evomark.Document.Node
/-!
# Trees with lasting handles

A `Tree` keeps the nodes of a document in numbered slots, so that a number names the same node
however the document is edited. Slot 0 is the root. Slots are never used again: a node that has
been removed keeps its slot, without children and without a way to the root, as do all nodes that
were below it. Children are always made after their parents, so following children from any slot
leads to greater numbers.

Every change is made at a node: a new child or sibling, or nodes taken away. `Tree.subtree` gives the
document below a slot as a `Node` whose labels name their slots. `Tree.ofDocument` makes a tree of a
document that has been read already, by `Tree.graft`: nodes that name a slot stay there, nodes that do
not get new slots, and nodes that are missing are removed.
-/

namespace Evomark

/-- A node of a tree, with its links. -/
structure Slot where
  label : Label
  children : List Nat := []
  parent : Option Nat := none
  removed : Bool := false
  deriving Inhabited

/-- A slot that has been removed. -/
def Slot.bury (s : Slot) : Slot := { s with removed := true, children := [] }

/-- Nodes in numbered slots. -/
structure Tree where
  slots : Array Slot

namespace Tree

/-- A tree of a root only. -/
def empty : Tree := ⟨#[{ label := { kind := .root } }]⟩

/-- The number of the root. -/
def root : Nat := 0

/-- The slot of a number. -/
def slot? (t : Tree) (id : Nat) : Option Slot := t.slots[id]?

/-- The label of a node. -/
def label (t : Tree) (id : Nat) : Label := ((t.slot? id).map (·.label)).getD default

/-- The children of a node. -/
def children (t : Tree) (id : Nat) : List Nat := ((t.slot? id).map (·.children)).getD []

/-- The parent of a node. -/
def parent? (t : Tree) (id : Nat) : Option Nat := (t.slot? id).bind (·.parent)

/-- The kind of a node. -/
def kind (t : Tree) (id : Nat) : Kind := (t.label id).kind

/-- Neither the node nor anything above it has been removed. -/
def isAttached (t : Tree) (id : Nat) : Bool := ((t.slot? id).map (!·.removed)).getD false

/-- The number of nodes that have not been removed, the root included. -/
def size (t : Tree) : Nat := t.slots.toList.countP (!·.removed)

/-- The root has no children. -/
def isEmpty (t : Tree) : Bool := (t.children root).isEmpty

/-- A tree with one slot changed. -/
def modify (t : Tree) (id : Nat) (f : Slot → Slot) : Tree := ⟨t.slots.modify id f⟩

/-- A new node without links, and its number. -/
def alloc (t : Tree) (label : Label) (parent : Nat) : Nat × Tree :=
  (t.slots.size, ⟨t.slots.push { label, parent := some parent }⟩)

/-- A new last child of `parent`, and its number. -/
def pushChild (t : Tree) (parent : Nat) (label : Label) : Nat × Tree :=
  let (id, t) := t.alloc label parent
  (id, t.modify parent fun s => { s with children := s.children ++ [id] })

/-- `new` put behind `id`, or at the end if `id` is not there. -/
def insertBehind (id new : Nat) : List Nat → List Nat
  | [] => [new]
  | c :: rest => if c = id then c :: new :: rest else c :: insertBehind id new rest

/-- A new node right behind `id`, and its number. A node without a parent gets a child instead. -/
def addSibling (t : Tree) (id : Nat) (label : Label) : Nat × Tree :=
  match t.parent? id with
  | none => t.pushChild id label
  | some parent =>
    let (new, t) := t.alloc label parent
    (new, t.modify parent fun s => { s with children := insertBehind id new s.children })

mutual

/-- The numbers below `id`, `id` first, down to a depth. -/
def below (t : Tree) : Nat → Nat → List Nat
  | 0, id => [id]
  | depth + 1, id => id :: belowAll t depth (t.children id)

/-- The numbers below some numbers. -/
def belowAll (t : Tree) : Nat → List Nat → List Nat
  | _, [] => []
  | depth, id :: rest => below t depth id ++ belowAll t depth rest

end

/-- The numbers of a node and of all below it, parents before children. -/
def descendants (t : Tree) (id : Nat) : List Nat := t.below t.slots.size id

/-- A tree with some nodes removed, the links of others being left as they are. -/
def bury (t : Tree) (ids : List Nat) : Tree := ids.foldl (fun t id => t.modify id Slot.bury) t

/-- The tree without a node and all below it. The root stays. -/
def remove (t : Tree) (id : Nat) : Tree :=
  if id = root then t
  else
    let t' := match t.parent? id with
      | none => t
      | some parent =>
        (t.modify parent fun s => { s with children := s.children.filter (· != id) }).modify id
          fun s => { s with parent := none }
    t'.bury (t.descendants id)

/-- The tree without the children of `id` that are of a kind. -/
def removeChildren (t : Tree) (id : Nat) (kind : Kind) : Tree :=
  ((t.children id).filter fun c => t.kind c == kind).foldl remove t

/-- The number that follows `id` in a list. -/
def successor (id : Nat) : List Nat → Option Nat
  | [] => none
  | c :: rest => if c = id then rest.head? else successor id rest

/-- The next child of the same parent. -/
def nextSibling? (t : Tree) (id : Nat) : Option Nat :=
  (t.parent? id).bind fun parent => successor id (t.children parent)

/-- The next child of the same parent that is no separator. -/
def nextMeaningful? (t : Tree) (id : Nat) : Option Nat :=
  (t.parent? id).bind fun parent =>
    match (t.children parent).dropWhile (· != id) with
    | [] => none
    | _ :: rest => rest.find? fun c => t.kind c != .sep

/-- The first child of a kind. -/
def firstChild? (t : Tree) (id : Nat) (kind : Kind) : Option Nat :=
  (t.children id).find? fun c => t.kind c == kind

/-- The first child that is a body. -/
def firstBody? (t : Tree) (id : Nat) : Option Nat :=
  (t.children id).find? fun c => (t.kind c).isBody

/-- The child indices that lead from the root to a node, found within so many steps upwards. -/
def placeWithin (t : Tree) : Nat → Nat → Option (List Nat)
  | 0, _ => none
  | steps + 1, id =>
    if id = root then some []
    else do
      let parent ← t.parent? id
      let index ← (t.children parent).findIdx? (· == id)
      let place ← t.placeWithin steps parent
      return place ++ [index]

/-- The child indices that lead from the root to a node, unless a link on the way is gone. -/
def place? (t : Tree) (id : Nat) : Option (List Nat) := t.placeWithin (t.slots.size + 1) id

/-- The node that child indices lead to from `id`. -/
def follow? (t : Tree) (id : Nat) : List Nat → Option Nat
  | [] => some id
  | index :: rest => (t.children id)[index]?.bind fun c => t.follow? c rest

mutual

/-- The document below `id`, down to a depth. -/
def subtreeTo (t : Tree) : Nat → Nat → Node
  | 0, id => .leaf { t.label id with slot := some id }
  | depth + 1, id => ⟨{ t.label id with slot := some id }, subtreesTo t depth (t.children id)⟩

/-- The documents below some numbers, down to a depth. -/
def subtreesTo (t : Tree) : Nat → List Nat → List Node
  | _, [] => []
  | depth, id :: rest => subtreeTo t depth id :: subtreesTo t depth rest

end

/-- The document below `id`; its labels name their slots. -/
def subtree (t : Tree) (id : Nat) : Node := t.subtreeTo t.slots.size id

/-- The whole document. -/
def document (t : Tree) : Node := t.subtree root

mutual

/-- A node and all below it put into slots: the slot it names, or a new one. -/
def install (t : Tree) (parent : Nat) : Node → Nat × Tree
  | ⟨label, children⟩ =>
    let plain := { label with slot := none }
    match label.slot with
    | some id =>
      let (ids, t) := installAll t id children
      (id, t.modify id fun s => { s with label := plain, children := ids })
    | none =>
      let (id, t) := t.alloc plain parent
      let (ids, t) := installAll t id children
      (id, t.modify id fun s => { s with children := ids })

/-- Nodes put into slots as children of `parent`. -/
def installAll (t : Tree) (parent : Nat) : List Node → List Nat × Tree
  | [] => ([], t)
  | n :: rest =>
    let (id, t) := install t parent n
    let (ids, t) := installAll t parent rest
    (id :: ids, t)

end

/-- The slots that the labels of a document name. -/
def namedSlots (n : Node) : List Nat := n.preorder.filterMap fun (_, label) => label.slot

/-- The tree with the document below `id` replaced by an edited one. -/
def graft (t : Tree) (id : Nat) (n : Node) : Tree :=
  let kept := id :: namedSlots n
  let gone := (t.descendants id).filter fun d => !kept.contains d
  let t := gone.foldl (fun t d =>
    t.modify d fun s =>
      { s.bury with parent := s.parent.filter fun p => gone.contains p }) t
  (t.install id { n with label := { n.label with slot := some id } }).2

/-- A tree of a document. -/
def ofDocument (n : Node) : Tree := empty.graft root n

end Tree

end Evomark
