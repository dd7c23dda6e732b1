import Evomark.Proofs.Document.Extended
import Evomark.Proofs.Markup.Scan
/-!
# Reading by bytes

A `ByteReader` does what a `Reader` does, but knows its window by offsets only: it looks at single bytes, cuts
texts between offsets, and finds nodes by their numbers. All of these can go wrong, so its steps are attempts,
and nothing is done about a misreading. Bodies are read by the same steps again without a bound.
-/

namespace Evomark.Markup

/-- The state of reading by offsets. -/
structure ByteReader where
  /-- Where the window starts. -/
  start : Nat
  /-- Where reading goes on. -/
  pos : Nat
  /-- Where the window ends. -/
  stop : Nat
  /-- The node that new nodes are put below. -/
  current : Nat
  tree : Tree
  /-- The settings of each namespace. -/
  config : Table Json
  /-- Some window could not be read to its end. -/
  aborted : Bool

namespace ByteReader

/-! ## Nodes -/

/-- A new node below the current one, and its number. -/
def push (b : ByteReader) (label : Label) : Attempt (Nat × ByteReader) := do
  nodeAt b.tree b.current
  let (id, tree) := b.tree.pushChild b.current label
  pure (id, { b with tree })

/-- A new node below the current one, which becomes the current node itself, and its number. -/
def enter (b : ByteReader) (label : Label) : Attempt (Nat × ByteReader) := do
  let (id, b) ← b.push label
  pure (id, { b with current := id })

/-- New nodes without children below the current one. -/
def pushLeaves (b : ByteReader) (ns : List Node) : Attempt ByteReader :=
  ns.foldlM (fun b n => Prod.snd <$> b.push n.label) b

/-- The lines of a text in a new node, unless they are empty. -/
def pushText (b : ByteReader) (kind : Kind) (raw : String) : Attempt ByteReader :=
  let content := Text.normalizeLines raw.toList
  if content.isEmpty then pure b else Prod.snd <$> b.push { kind, content := String.ofList content }

/-- A warning below the root. -/
def warn (b : ByteReader) (message : String) : Attempt ByteReader := do
  nodeAt b.tree Tree.root
  pure { b with tree := (b.tree.pushChild Tree.root (warningNode message).label).2 }

/-- The parent of a node becomes the current node. -/
def ascend (b : ByteReader) (id : Nat) : Attempt ByteReader := do
  nodeAt b.tree id
  pure { b with current := (b.tree.parent? id).getD Tree.root }

/-- The current node with some text. -/
def keep (b : ByteReader) (content : String) : Attempt ByteReader := do
  nodeAt b.tree b.current
  pure { b with tree := b.tree.modify b.current fun s => { s with label := { s.label with content } } }

/-- A node is taken back, with all below it. -/
def remove (b : ByteReader) (id : Nat) : Attempt ByteReader := do
  forM (b.tree.parent? id).toList (nodeAt b.tree)
  forM (b.tree.descendants id) (nodeAt b.tree)
  pure { b with tree := b.tree.remove id }

/-- Settings laid over those there are. -/
def settle (b : ByteReader) (settings : List (String × Table Json)) : ByteReader :=
  { b with config := overlay b.config settings }

/-- The children of a node are parameters. -/
def hasOnlyParams (b : ByteReader) (id : Nat) : Attempt Bool := do
  nodeAt b.tree id
  (b.tree.children id).allM fun c => do
    nodeAt b.tree c
    pure (b.tree.kind c == .funcParam)

section

variable (s : String)

/-! ## Clauses -/

/-- A name, which may be empty. -/
def takeName (b : ByteReader) : Attempt (String × ByteReader) := do
  let i ← skipWhile s b.stop Window.isNameChar b.pos
  let name ← textBetween s b.pos i
  pure (name, { b with pos := i })

/-- A parameter, which becomes a node, and its value. -/
def takeParam (b : ByteReader) : Attempt (Option Json × ByteReader) := do
  let opens ← signAt s b.stop b.pos '('
  if opens then
    match ← parenEnd s b.stop 0 false (b.pos + 1) with
    | none => pure (none, b)
    | some close =>
      let inner ← textBetween s (b.pos + 1) close
      let raw := String.ofList (Text.trim inner.toList)
      let value := Clause.paramValue raw
      let (_, b) ← b.push
        { kind := .funcParam, content := raw, value := some value, span := some ⟨b.pos + 1, close⟩ }
      pure (some value, { b with pos := close + 1 })
  else pure (none, b)

/-- The layout and the inside of a body between braces, and where it ends. -/
def braces (b : ByteReader) : Attempt (Option (Layout × Span × Nat)) := do
  match ← braceEnd s b.stop 0 (b.pos + 1) with
  | none => pure none
  | some close =>
    let inner ← bytesBetween s (b.pos + 1) close
    let layout := if inner.contains '\n' then Layout.block else Layout.inline
    pure (some (layout, ⟨b.pos + 1, close⟩, close + 1))

/-- The layout and the inside of a body between fences, and where it ends. -/
def fences (b : ByteReader) : Attempt (Option (Layout × Span × Nat)) := do
  let i ← skipWhile s b.stop (· == '=') b.pos
  let opens ← signAt s b.stop i '>'
  if opens then
    let length ← minus i b.pos
    match ← fenceEnd s b.stop length (i + 1) with
    | none => pure none
    | some close => pure (some (.code length length, ⟨i + 1, close⟩, close + length + 1))
  else pure none

/-- The layout and the inside of a body, and where it ends. -/
def delimited (b : ByteReader) : Attempt (Option (Layout × Span × Nat)) := do
  let braced ← signAt s b.stop b.pos '\x7b'
  let fenced ← andThen (!braced) (signAt s b.stop b.pos '=')
  if braced then braces s b else if fenced then fences s b else pure none

/-- A body, which becomes a node, its number and its inside. -/
def takeBody (kind : Kind) (b : ByteReader) : Attempt (Option (Nat × Span) × ByteReader) := do
  match ← delimited s b with
  | none => pure (none, b)
  | some (layout, span, stop) =>
    let (id, b) ← b.push { kind, layout := some layout, span := some span }
    pure (some (id, span), { b with pos := stop })

/-! ## Bodies that are not markup -/

/-- The whole window, which becomes the text of the current node. -/
def takeRaw (b : ByteReader) : Attempt (String × ByteReader) := do
  let raw ← textBetween s b.start b.stop
  let b ← b.keep raw
  pure (raw, { b with pos := b.stop })

/-- The literals, uses and separators from `i` on. A run of text has started at `start`. -/
def literals (start i : Nat) (b : ByteReader) : Attempt ByteReader := do
  if i < b.stop then
    let use ← startsAt s b.stop i '%'
    if use then
      let run ← textBetween s start i
      let b ← b.pushText .literal run
      let (name, b) ← takeName s { b with pos := i + 1 }
      let (_, b) ← b.push (useOf name).label
      b |>.literals b.pos b.pos
    else
      let c ← byteAt s i
      if c = '\n' then
        let (j, breaks) ← gapEnd s b.stop i 0
        if 2 ≤ breaks then
          let run ← textBetween s start i
          let b ← b.pushText .literal run
          let (_, b) ← b.push (sepOf breaks).label
          b |>.literals j j
        else b |>.literals start j
      else b |>.literals start (i + 1)
  else
    let run ← textBetween s start b.stop
    let b ← b.pushText .literal run
    pure { b with pos := b.stop }
partial_fixpoint

/-! ## Constructs -/

/-- Text up to the next construct or empty line. -/
def prose (b : ByteReader) : Attempt (Bool × ByteReader) := do
  let i ← proseEnd s b.stop b.pos
  if i = b.pos then pure (false, b)
  else
    let raw ← textBetween s b.pos i
    let b ← b.pushText .text raw
    pure (true, { b with pos := i })

/-- Behind spaces and an equality sign, if there is one, and a gap after it. -/
def behindEquals (b : ByteReader) : Attempt (Option Nat) := do
  let i ← skipWhile s b.stop Segment.isSpace b.pos
  let equals ← signAt s b.stop i '='
  if equals then some <$> skipWhile s b.stop Segment.isGap (i + 1) else pure none

variable (g : Grammar)

mutual

/-- A window read step by step to its end, or up to where no step takes anything. Line feeds are passed
over. -/
def core (b : ByteReader) : Attempt (Bool × ByteReader) := do
  if b.pos < b.stop then
    let c ← byteAt s b.pos
    if c = '\n' then ({ b with pos := b.pos + 1 }) |>.core
    else
      let (found, b) ← b |>.step
      if found then b |>.core else pure (false, { b with aborted := true })
  else pure (true, b)
partial_fixpoint

/-- The first of the steps that takes something. -/
def step (b : ByteReader) : Attempt (Bool × ByteReader) := do
  let (found, b) ← prose s b
  if found then pure (true, b)
  else
    let (found, b) ← b |>.function
    if found then pure (true, b)
    else
      let (found, b) ← b |>.reference
      if found then pure (true, b)
      else
        let (found, b) ← b |>.command
        if found then pure (true, b) else b |>.assignment
partial_fixpoint

/-- A function with its clauses. -/
def function (b : ByteReader) : Attempt (Bool × ByteReader) := do
  let starts ← startsAt s b.stop b.pos '#'
  if starts then
    let (name, b) ← takeName s { b with pos := b.pos + 1 }
    let (id, b) ← b.enter { kind := .func, content := name }
    let b ← b |>.functionClauses (g.functionRule name) id none
    let b ← b.ascend id
    pure (true, b)
  else pure (false, b)
partial_fixpoint

/-- As many clauses of the function `id` as there are. -/
def functionClauses (rule : BodyRule) (id : Nat) (param : Option Json) (b : ByteReader) :
    Attempt ByteReader := do
  let (found, param, b) ← b |>.clause rule .funcBody param
  if found then b |>.functionClauses rule id param else b |>.host rule id param
partial_fixpoint

/-- While the function `id` has nothing but parameters, a function behind it is its body. -/
def host (rule : BodyRule) (id : Nat) (param : Option Json) (b : ByteReader) : Attempt ByteReader := do
  let only ← b.hasOnlyParams id
  let hosts ← andThen only (startsAt s b.stop b.pos '#')
  if hosts then
    let (_, b) ← b.enter { kind := .funcBody, layout := some .directChild }
    let (_, b) ← b |>.function
    { b with current := id } |>.functionClauses rule id param
  else pure b
partial_fixpoint

/-- A parameter and a body, if they are there; whether any of them is, and the last parameter. -/
def clause (rule : BodyRule) (kind : Kind) (param : Option Json) (b : ByteReader) :
    Attempt (Bool × Option Json × ByteReader) := do
  let (value, b) ← takeParam s b
  b |>.bodyClause rule kind (value.or param) value.isSome
partial_fixpoint

/-- A body, if it is there; whether it is, or something was `found` before, and the last parameter. -/
def bodyClause (rule : BodyRule) (kind : Kind) (param : Option Json) (found : Bool) (b : ByteReader) :
    Attempt (Bool × Option Json × ByteReader) := do
  let (inner, b) ← takeBody s kind b
  match inner with
  | none => pure (found, param, b)
  | some (id, span) =>
    let b ← b |>.body rule param id span
    pure (true, param, b)
partial_fixpoint

/-- The body `id` read by a rule. Behind it reading goes on as before. -/
def body (rule : BodyRule) (param : Option Json) (id : Nat) (span : Span) (b : ByteReader) :
    Attempt ByteReader := do
  let inside := { b with start := span.start, pos := span.start, stop := span.stop, current := id }
  let (_, inside) ← inside |>.runRule rule param
  pure { inside with start := b.start, pos := b.pos, stop := b.stop, current := b.current }
partial_fixpoint

/-- A window read by a rule. `param` is the last parameter before the body. -/
def runRule (rule : BodyRule) (param : Option Json) (b : ByteReader) : Attempt (Bool × ByteReader) :=
  match rule with
  | .box => b |>.core
  | .code => do
    let (_, b) ← takeRaw s b
    pure (true, b)
  | .literal => do
    let b ← literals s b.pos b.pos b
    pure (true, b)
  | .config space => do
    let (raw, b) ← takeRaw s b
    let found := readSettings space param raw
    let b ← b.pushLeaves found.children
    pure (true, b.settle found.settings)
  | .reject => pure (false, b)
  | .shout => do
    let raw ← textBetween s b.start b.stop
    let b ← b.pushLeaves [.leaf { kind := .literal, content := Text.uppercase raw, value := param }]
    pure (true, { b with pos := b.stop })
partial_fixpoint

/-- A reference sign with a name, and the function it names. -/
def reference (b : ByteReader) : Attempt (Bool × ByteReader) := do
  let starts ← signAt s b.stop b.pos '@'
  if starts then
    let (name, b) ← takeName s { b with pos := b.pos + 1 }
    match ← behindEquals s b with
    | none =>
      let b ← b.warn (referenceWarning name)
      pure (true, b)
    | some i =>
      let sign ← signAt s b.stop i '#'
      if sign then
        let (id, b) ← enter { b with pos := i } { kind := .ref, content := name }
        let (found, b) ← b |>.function
        let b ← if found then pure b else b.warn (referenceWarning name)
        let b ← b.ascend id
        pure (true, b)
      else
        let b ← warn { b with pos := i } (referenceWarning name)
        pure (true, b)
  else pure (false, b)
partial_fixpoint

/-- A command with its clauses. -/
def command (b : ByteReader) : Attempt (Bool × ByteReader) := do
  let starts ← startsAt s b.stop b.pos '$'
  if starts then
    let (name, b) ← takeName s { b with pos := b.pos + 1 }
    let (id, b) ← b.enter { kind := .cmd, content := name }
    let b ← b |>.commandClauses (g.commandRule name) none
    let b ← b.ascend id
    pure (true, b)
  else pure (false, b)
partial_fixpoint

/-- As many clauses as there are. -/
def commandClauses (rule : BodyRule) (param : Option Json) (b : ByteReader) : Attempt ByteReader := do
  let (found, param, b) ← b |>.clause rule .body param
  if found then b |>.commandClauses rule param else pure b
partial_fixpoint

/-- A use of a variable, or an assignment with its command. What turns out to have no command is taken
back. -/
def assignment (b : ByteReader) : Attempt (Bool × ByteReader) := do
  let starts ← startsAt s b.stop b.pos '%'
  if starts then
    let (name, b) ← takeName s { b with pos := b.pos + 1 }
    match ← behindEquals s b with
    | none =>
      let (_, b) ← b.push { kind := .varUse, content := name }
      pure (true, b)
    | some i =>
      let (id, b) ← enter { b with pos := i } { kind := .varAssign, content := name }
      let (found, b) ← b |>.command
      let b ← b.ascend id
      if found then pure (true, b)
      else
        let b ← b.remove id
        let b ← b.warn (assignmentWarning name)
        pure (true, b)
  else pure (false, b)
partial_fixpoint

end

end

/-- A reader at the start of a source. -/
def ofSource (initial : Table Json) (s : String) : ByteReader :=
  ⟨0, 0, s.utf8ByteSize, Tree.root, .empty, initial, false⟩

/-- The document of a source, read by bytes. -/
def parse (g : Grammar) (initial : Table Json) (s : String) : Attempt Parsed := do
  let (_, b) ← core s g (ofSource initial s)
  pure { document := b.tree.document.unslotted, config := b.config, complete := !b.aborted }

end ByteReader

end Evomark.Markup
