import Evomark.Markup.Clause
import Evomark.Markup.Dictionary
import Evomark.Markup.Literal
import Evomark.Proofs.Document.Written
/-!
# What is read back

The document that is read back from the text of a document, if it can be read back at all:

* `Node.reread` is that document, without places: parameters are read from the texts of their
  values, separators in literal bodies from the line feeds written for them, and results are not
  part of the text;
* `Node.isReadable` says that every body ends where its own delimiters end it, that the values of
  parameters are kept, and that no line feeds are lost at the start of a literal body.
-/

namespace Evomark

/-- The label without its places in a source and in a tree. -/
def Label.unplaced (label : Label) : Label := { label with span := none, slot := none }

namespace Node

mutual

/-- The node without its places and those of the nodes below it. -/
def unplaced : Node → Node
  | ⟨label, children⟩ => ⟨label.unplaced, unplacedAll children⟩

/-- The nodes without their places. -/
def unplacedAll : List Node → List Node
  | [] => []
  | n :: rest => n.unplaced :: unplacedAll rest

end

theorem kind_unplaced (n : Node) : n.unplaced.kind = n.kind := by
  cases n
  rfl

theorem content_unplaced (n : Node) : n.unplaced.content = n.content := by
  cases n
  rfl

theorem children_unplaced (n : Node) : n.unplaced.children = unplacedAll n.children := by
  cases n
  rfl

theorem unplacedAll_eq (ns : List Node) : unplacedAll ns = ns.map unplaced := by
  induction ns with
  | nil => rfl
  | cons n rest ih => rw [unplacedAll, ih, List.map_cons]

theorem unplacedAll_append (ns ms : List Node) :
    unplacedAll (ns ++ ms) = unplacedAll ns ++ unplacedAll ms := by
  simp only [unplacedAll_eq, List.map_append]

/-! ## Literal bodies -/

/-- The separator that is read from a gap of so many line feeds. -/
def gapNodes (count : Nat) : List Node := if 2 ≤ count then [Markup.sepOf count] else []

/-- The line feeds of a gap with one more separator in it. -/
def widen (count : Nat) (sep : Node) : Nat := if count = 0 then sep.label.sepCount else count + 1

/-- The nodes of a literal body as they are read back behind a gap of `count` line feeds. The gap at
the end is read as `atEnd` says. -/
def settle (atEnd : Nat → List Node) (count : Nat) : List Node → List Node
  | [] => atEnd count
  | n :: rest =>
    if n.kind = .sep then settle atEnd (widen count n) rest
    else gapNodes count ++ .leaf n.label.unplaced :: settle atEnd 0 rest

/-- The nodes of a literal body as they are read back. On lines of its own, it starts behind a line
feed, and the gap at its end is not part of it. -/
def rereadItems (layout : Option Layout) (items : List Node) : List Node :=
  if layout = some .block then settle (fun _ => []) 1 items else settle gapNodes 0 items

/-- No gap at the start of a literal body on lines of its own is wider than one separator makes it. -/
def leadsOnce (layout : Option Layout) (items : List Node) : Bool :=
  layout != some .block || (items.dropWhile (·.kind == .sep)).isEmpty
    || (items.takeWhile (·.kind == .sep)).length ≤ 1

/-! ## Documents -/

/-- The label of a parameter as it is read back. -/
def rereadParam (label : Label) : Label :=
  let text := String.ofList (paramText label)
  { label.unplaced with content := text, value := some (Clause.paramValue text) }

mutual

/-- The node as it is read back. -/
def reread : Node → Node
  | ⟨label, children⟩ =>
    match label.kind with
    | .funcParam => .leaf (rereadParam label)
    | .body => ⟨label.unplaced, rereadItems label.layout children⟩
    | _ => ⟨label.unplaced, rereadAll children⟩

/-- The nodes as they are read back, without the separators of markers and without results. -/
def rereadAll : List Node → List Node
  | [] => []
  | n :: rest =>
    if n.kind = .sep ∨ n.kind = .literal then rereadAll rest else n.reread :: rereadAll rest

end

theorem kind_reread (n : Node) : n.reread.kind = n.kind := by
  obtain ⟨label, children⟩ := n
  rw [reread]
  split <;> rfl

theorem children_reread_of_kind {label : Label} {children : List Node}
    (hk : label.kind ≠ .funcParam ∧ label.kind ≠ .body) :
    (reread ⟨label, children⟩).children = rereadAll children := by
  rw [reread]
  cases hkind : label.kind <;> first | rfl | exact absurd hkind hk.1 | exact absurd hkind hk.2

theorem rereadAll_sep {n : Node} (h : n.kind = .sep) (rest : List Node) :
    rereadAll (n :: rest) = rereadAll rest := by
  rw [rereadAll, if_pos (.inl h)]

theorem rereadAll_cons {n : Node} (hn : n.kind ≠ .sep ∧ n.kind ≠ .literal) (rest : List Node) :
    rereadAll (n :: rest) = n.reread :: rereadAll rest := by
  rw [rereadAll, if_neg (not_or.2 hn)]

theorem rereadAll_clause {label : Label} (hk : label.kind ≠ .sep ∧ label.kind ≠ .literal)
    (children rest : List Node) :
    rereadAll (⟨label, children⟩ :: rest) = Node.reread ⟨label, children⟩ :: rereadAll rest := by
  rw [rereadAll, if_neg]
  exact not_or.2 hk

theorem rereadAll_append (ns ms : List Node) : rereadAll (ns ++ ms) = rereadAll ns ++ rereadAll ms := by
  induction ns with
  | nil => rfl
  | cons n rest ih =>
    rw [List.cons_append, rereadAll, rereadAll, ih]
    split <;> rfl

/-! ## Readable documents -/

/-- A body ends where its delimiters end it, and is read with its layout. -/
def closes (layout : Layout) (inside : List Char) : Bool :=
  let brace := Clause.splitBraces 0 (inside ++ ['\x7d']) == some (inside, [])
  match layout with
  | .inline => brace && !inside.contains '\n'
  | .block => brace
  | .code n _ => Text.splitAt? (Clause.closingFence n) (inside ++ Clause.closingFence n) == some (inside, [])
  | .directChild => true

/-- A parameter read back has a value that is written the same and chooses the same language. -/
def keepsValue (label : Label) : Bool :=
  let again := (rereadParam label).value
  again.map Json.write == label.value.map Json.write
    && Markup.languageOf again == Markup.languageOf label.value

/-- The level at which the children of a body are written. -/
def levelInside (layout : Option Layout) (level : Nat) : Nat :=
  if layout = some .block then level + 1 else level

mutual

/-- The text of the node can be read back. -/
def isReadable (unit : List Char) (level : Nat) : Node → Bool
  | ⟨label, children⟩ =>
    match label.kind with
    | .funcParam => keepsValue label
    | .body | .funcBody =>
      closes (label.layout.getD .inline)
          (insideText unit level label fun level edge => flowText unit level none edge children)
        && (label.kind != .body || leadsOnce label.layout children)
        && areReadable unit (levelInside label.layout level) children
    | _ => areReadable unit level children

/-- The texts of the nodes can be read back. -/
def areReadable (unit : List Char) (level : Nat) : List Node → Bool
  | [] => true
  | n :: rest => isReadable unit level n && areReadable unit level rest

end

end Node

end Evomark
