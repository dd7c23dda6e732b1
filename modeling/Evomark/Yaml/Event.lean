import Evomark.Yaml.Token
/-!
# Events of a document

A document as the scalars in it and the starts and ends of its collections, in reading order.
Which token may come next is kept as a stack of `Expected`, innermost first: one entry for every
collection that is open. `Expected.step` gives the next event for the innermost entry, and
`readEvents` all events up to the end of the first document, or to an error.
-/

namespace Evomark.Yaml

/-- A name for a value, and the tag of the value. -/
structure Properties where
  anchor : Option String
  tag : Option String
  deriving DecidableEq, Repr

/-- What an event is. -/
inductive EventKind
  | aliasTo (name : String)
  | scalar (properties : Properties) (text : String) (plain : Bool)
  | sequenceStart (properties : Properties)
  | sequenceEnd
  | mappingStart (properties : Properties)
  | mappingEnd
  deriving DecidableEq, Repr

/-- An event and where it starts. -/
structure Event where
  kind : EventKind
  mark : Mark
  deriving DecidableEq, Repr

/-- What may come next in a collection that started at `since`. -/
inductive Expected
  /-- The value of the document, which may be left out. -/
  | content
  /-- The value of a document without a marker. -/
  | node
  | blockItem (since : Mark)
  /-- An item of a sequence that is not indented more than the key before it. -/
  | looseItem
  | blockKey (since : Mark)
  | blockValue (since : Mark)
  | flowItem (first : Bool) (since : Mark)
  /-- The key of a single pair in a flow sequence. -/
  | pairKey (since : Mark)
  | pairValue (since : Mark)
  | pairEnd (since : Mark)
  | flowKey (first : Bool) (since : Mark)
  | flowValue (since : Mark)
  /-- The value of a key without a colon. -/
  | noValue (since : Mark)
  deriving DecidableEq, Repr

/-- A document while its events are read: the shorthands for tags, what is expected, and the
tokens left. -/
structure Progress where
  shorthands : List (String × String)
  stack : List Expected
  feed : Feed

/-- A step: the event and what is left after it. -/
abbrev Step := Except SyntaxError (Event × Progress)

namespace Progress

/-- The next token. -/
def peek (p : Progress) : Except SyntaxError Token := p.feed.peek

/-- Passes the next token. -/
def drop (p : Progress) : Progress := { p with feed := p.feed.drop }

/-- `expected` on top of what else is. -/
def push (expected : Expected) (p : Progress) : Progress := { p with stack := expected :: p.stack }

/-- `event`, and `p` after it. -/
def emit (kind : EventKind) (mark : Mark) (p : Progress) : Step := .ok (⟨kind, mark⟩, p)

/-- A value that is left out. -/
def emitEmpty (mark : Mark) (p : Progress) : Step :=
  p.emit (.scalar ⟨none, none⟩ "" true) mark

/-- The problem that the next token is, met in a collection. -/
def unexpected (activity : Activity) (since : Mark) (problem : Problem) (token : Token) : Step :=
  .error ⟨problem, token.mark, some (activity, since)⟩

end Progress

/-- Where a value stands, which decides the forms it may have. -/
inductive Position
  | block
  /-- After a key or its colon: a sequence need not be indented. -/
  | blockPair
  | flow
  deriving DecidableEq, Repr

/-- The properties before a value, with the place of the tag and where they start. -/
structure PropertyTokens where
  anchor : Option String
  tag : Option (String × String × Mark)
  since : Mark

/-- Reads an anchor and a tag, each at most once, in either order. -/
def readProperties (p : Progress) : Except SyntaxError (PropertyTokens × Progress) := do
  let first ← p.peek
  match first.lexeme with
  | .anchor name =>
    let second ← p.drop.peek
    match second.lexeme with
    | .tag handle suffix =>
      return (⟨some name, some (handle, suffix, second.mark), first.mark⟩, p.drop.drop)
    | _ => return (⟨some name, none, first.mark⟩, p.drop)
  | .tag handle suffix =>
    let second ← p.drop.peek
    match second.lexeme with
    | .anchor name =>
      return (⟨some name, some (handle, suffix, first.mark), first.mark⟩, p.drop.drop)
    | _ => return (⟨none, some (handle, suffix, first.mark), first.mark⟩, p.drop)
  | _ => return (⟨none, none, first.mark⟩, p)

/-- The tag written by a handle and a suffix. -/
def resolveTag (shorthands : List (String × String)) (since : Mark) :
    Option (String × String × Mark) → Except SyntaxError (Option String)
  | none => .ok none
  | some (handle, suffix, mark) =>
    if handle = "" then .ok (some suffix)
    else
      match shorthands.lookup handle with
      | some start => .ok (some (start ++ suffix))
      | none => .error ⟨.undefinedHandle, mark, some (.node, since)⟩

/-- The event of a value, after which what `p` expects comes. The tag of a mark alone says that
a scalar has none. -/
def readNode (position : Position) (p : Progress) : Step := do
  let first ← p.peek
  match first.lexeme with
  | .aliasTo name => p.drop.emit (.aliasTo name) first.mark
  | _ =>
    let (written, p) ← readProperties p
    let token ← p.peek
    let tag ← resolveTag p.shorthands written.since written.tag
    let properties : Properties := ⟨written.anchor, tag⟩
    let since := written.since
    match token.lexeme, position with
    | .item, .blockPair => (p.push .looseItem).emit (.sequenceStart properties) since
    | .scalar text plain, _ =>
      let tag := tag.filter (· != "!")
      p.drop.emit (.scalar ⟨written.anchor, tag⟩ text plain) since
    | .flowSequence, _ =>
      (p.drop.push (.flowItem true token.mark)).emit (.sequenceStart properties) since
    | .flowMapping, _ =>
      (p.drop.push (.flowKey true token.mark)).emit (.mappingStart properties) since
    | lexeme, _ =>
      if lexeme = .blockSequence && position != .flow then
        (p.drop.push (.blockItem token.mark)).emit (.sequenceStart properties) since
      else if lexeme = .blockMapping && position != .flow then
        (p.drop.push (.blockKey token.mark)).emit (.mappingStart properties) since
      else if written.anchor.isSome || tag.isSome then
        p.emit (.scalar properties "" true) since
      else
        Progress.unexpected (if position = .flow then .flowNode else .blockNode) since
          .expectedContent token

/-- A value, unless the next token is one of those that show that it is left out. -/
def readNodeUnless (ends : List Lexeme) (position : Position) (p : Progress) : Step := do
  let token ← p.peek
  if ends.contains token.lexeme then p.emitEmpty token.mark else readNode position p

/-- The tokens after which a value of a block is left out. -/
def blockEnds : List Lexeme := [.key, .value, .blockEnd]

namespace Expected

/-- The next event where `expected` is expected, `p` being what comes besides. -/
def step (expected : Expected) (p : Progress) : Step := do
  let token ← p.peek
  match expected with
  | content =>
    match token.lexeme with
    | .version .. | .tagShorthand .. | .documentStart | .documentEnd | .streamEnd =>
      p.emitEmpty token.mark
    | _ => readNode .block p
  | node => readNode .block p
  | blockItem since =>
    match token.lexeme with
    | .item => readNodeUnless [.item, .blockEnd] .block (p.drop.push (.blockItem since))
    | .blockEnd => p.drop.emit .sequenceEnd token.mark
    | _ => Progress.unexpected .blockCollection since .expectedItem token
  | looseItem =>
    match token.lexeme with
    | .item => readNodeUnless (.item :: blockEnds) .block (p.drop.push .looseItem)
    | _ => p.emit .sequenceEnd token.mark
  | blockKey since =>
    match token.lexeme with
    | .key => readNodeUnless blockEnds .blockPair (p.drop.push (.blockValue since))
    | .blockEnd => p.drop.emit .mappingEnd token.mark
    | _ => Progress.unexpected .blockMapping since .expectedKey token
  | blockValue since =>
    match token.lexeme with
    | .value => readNodeUnless blockEnds .blockPair (p.drop.push (.blockKey since))
    | _ => (p.push (.blockKey since)).emitEmpty token.mark
  | flowItem first since =>
    if token.lexeme = .flowSequenceEnd then p.drop.emit .sequenceEnd token.mark
    else if !first && token.lexeme != .comma then
      Progress.unexpected .flowSequence since .expectedCommaOrBracket token
    else
      let p := if first then p else p.drop
      let token ← p.peek
      match token.lexeme with
      | .flowSequenceEnd => p.drop.emit .sequenceEnd token.mark
      | .key => (p.drop.push (.pairKey since)).emit (.mappingStart ⟨none, none⟩) token.mark
      | _ => readNode .flow (p.push (.flowItem false since))
  | pairKey since =>
    let p' := p.push (.pairValue since)
    match token.lexeme with
    | .value | .comma | .flowSequenceEnd => p'.drop.emitEmpty token.mark
    | _ => readNode .flow p'
  | pairValue since =>
    let p' := p.push (.pairEnd since)
    match token.lexeme with
    | .value => readNodeUnless [.comma, .flowSequenceEnd] .flow p'.drop
    | _ => p'.emitEmpty token.mark
  | pairEnd since => (p.push (.flowItem false since)).emit .mappingEnd token.mark
  | flowKey first since =>
    if token.lexeme = .flowMappingEnd then p.drop.emit .mappingEnd token.mark
    else if !first && token.lexeme != .comma then
      Progress.unexpected .flowMapping since .expectedCommaOrBrace token
    else
      let p := if first then p else p.drop
      let token ← p.peek
      match token.lexeme with
      | .flowMappingEnd => p.drop.emit .mappingEnd token.mark
      | .key =>
        readNodeUnless [.value, .comma, .flowMappingEnd] .flow (p.drop.push (.flowValue since))
      | _ => readNode .flow (p.push (.noValue since))
  | flowValue since =>
    let p' := p.push (.flowKey false since)
    match token.lexeme with
    | .value => readNodeUnless [.comma, .flowMappingEnd] .flow p'.drop
    | _ => p'.emitEmpty token.mark
  | noValue since => (p.push (.flowKey false since)).emitEmpty token.mark

end Expected

/-- The events up to where nothing is expected, or to an error, and the tokens left. A token gives
rise to fewer than eight events, so `fuel` is eight for each. -/
def readEvents : (fuel : Nat) → Progress → List Event × Except SyntaxError Feed
  | 0, p => ([], .ok p.feed)
  | fuel + 1, p =>
    match p.stack with
    | [] => ([], .ok p.feed)
    | expected :: stack =>
      match expected.step { p with stack } with
      | .error e => ([], .error e)
      | .ok (event, p) =>
        let (events, ending) := readEvents fuel p
        (event :: events, ending)

end Evomark.Yaml
