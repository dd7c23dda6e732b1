import Evomark.Yaml.Event
import Evomark.Yaml.Token.Lexer
/-!
# The first document of a text

`Document.ofSource` reads the directives, the marker and the events of the first document of a
text and sees whether another one follows. An alias is known by the number of its anchor, and the
events are kept in full up to the first error, which is met only by what reads that far.
-/

namespace Evomark.Yaml

/-- A node of a document. -/
inductive Entry
  /-- The value at an anchor, by the anchor's number. -/
  | aliasTo (number : Nat)
  | scalar (tag : Option String) (text : String) (plain : Bool)
  | sequenceStart (tag : Option String)
  | sequenceEnd
  | mappingStart (tag : Option String)
  | mappingEnd
  deriving DecidableEq, Repr

/-- Anchors: the number of each name, and for each number the index of the entry it is at, the
latest first. -/
structure Anchors where
  numbers : List (String × Nat)
  targets : List (Nat × Nat)
  deriving Repr

namespace Anchors

/-- How many different names there are. -/
def size (anchors : Anchors) : Nat := anchors.numbers.length

/-- The name stands for the entry with this index from here on. Its number is how many names are
known before it. -/
def note (name : Option String) (index : Nat) (anchors : Anchors) : Anchors :=
  match name with
  | none => anchors
  | some name =>
    let number := anchors.size
    ⟨(name, number) :: anchors.numbers.filter (·.1 != name), (number, index) :: anchors.targets⟩

/-- The number of a name. -/
def number? (name : String) (anchors : Anchors) : Option Nat := anchors.numbers.lookup name

/-- The index of the entry that a number stands for. -/
def target? (number : Nat) (anchors : Anchors) : Option Nat := anchors.targets.lookup number

end Anchors

/-- The first document of a text. -/
structure Document where
  entries : List (Entry × Mark)
  anchors : Anchors
  /-- The error after the entries. -/
  fault : Option Error
  /-- Another document, or something that is none, follows. -/
  followed : Bool
  deriving Repr

namespace Document

/-- The entries of events, with the anchors they define, and the alias without an anchor that
ends them. -/
def entriesOf : List Event → (index : Nat) → Anchors → List (Entry × Mark) × Anchors × Option Error
  | [], _, anchors => ([], anchors, none)
  | event :: events, index, anchors =>
    let go (entry : Entry) (anchors : Anchors) :=
      let (entries, anchors, fault) := entriesOf events (index + 1) anchors
      ((entry, event.mark) :: entries, anchors, fault)
    match event.kind with
    | .aliasTo name =>
      match anchors.number? name with
      | some number => go (.aliasTo number) anchors
      | none => ([], anchors, some (.unknownAnchor event.mark))
    | .scalar properties text plain =>
      go (.scalar properties.tag text plain) (anchors.note properties.anchor index)
    | .sequenceStart properties =>
      go (.sequenceStart properties.tag) (anchors.note properties.anchor index)
    | .sequenceEnd => go .sequenceEnd anchors
    | .mappingStart properties =>
      go (.mappingStart properties.tag) (anchors.note properties.anchor index)
    | .mappingEnd => go .mappingEnd anchors

/-- The shorthands that need no directive. -/
def defaultShorthands : List (String × String) :=
  [("!", "!"), ("!!", "tag:yaml.org,2002:")]

/-- A version of the language that is read. -/
def isReadableVersion (major minor : Nat) : Bool := major == 1 && (minor == 1 || minor == 2)

/-- Reads directives: at most one version, and each shorthand once. `fuel` is the number of
tokens. -/
def readDirectives :
    (fuel : Nat) → (versioned : Bool) → (shorthands : List (String × String)) → Feed →
      Except SyntaxError (List (String × String) × Feed)
  | 0, _, shorthands, feed => .ok (shorthands, feed)
  | fuel + 1, versioned, shorthands, feed =>
    match feed.peek with
    | .error e => .error e
    | .ok token =>
      match token.lexeme with
      | .version major minor =>
        if versioned then .error ⟨.duplicateVersion, token.mark, none⟩
        else if isReadableVersion major minor then readDirectives fuel true shorthands feed.drop
        else .error ⟨.incompatibleVersion, token.mark, none⟩
      | .tagShorthand handle start =>
        if (shorthands.lookup handle).isSome then .error ⟨.duplicateHandle, token.mark, none⟩
        else readDirectives fuel versioned (shorthands ++ [(handle, start)]) feed.drop
      | _ => .ok (shorthands, feed)

/-- The start of the first document, if there is one. Directives need a marker after them. -/
def readStart (feed : Feed) : Except SyntaxError (Option Progress) := do
  let token ← feed.peek
  match token.lexeme with
  | .streamEnd => return none
  | .version .. | .tagShorthand .. | .documentStart =>
    let (shorthands, feed) ← readDirectives (feed.tokens.length + 1) false [] feed
    let token ← feed.peek
    if token.lexeme = .documentStart then
      return some ⟨shorthands ++ defaultShorthands, [.content], feed.drop⟩
    else throw ⟨.expectedDocumentStart, token.mark, none⟩
  | _ => return some ⟨defaultShorthands, [.node], feed⟩

/-- Nothing but ends of documents is left. -/
def isOver (feed : Feed) : Bool :=
  (feed.tokens.all (·.lexeme == .documentEnd)) && feed.ending.toBool

/-- A document that has an error before its first entry. -/
def broken (fault : Error) : Document := ⟨[], ⟨[], []⟩, some fault, false⟩

/-- The first document of the tokens. One that is missing is an empty value. -/
def ofFeed (feed : Feed) : Document :=
  match readStart feed with
  | .error e => broken (.wellFormedness e)
  | .ok none => ⟨[(.scalar none "" true, ⟨0, 0⟩)], ⟨[], []⟩, none, false⟩
  | .ok (some progress) =>
    let (events, ending) := readEvents (8 * (feed.tokens.length + 2)) progress
    let (entries, anchors, unknown) := entriesOf events 0 ⟨[], []⟩
    match unknown, ending with
    | some fault, _ => ⟨entries, anchors, some fault, true⟩
    | none, .error e => ⟨entries, anchors, some (.wellFormedness e), true⟩
    | none, .ok rest =>
      match rest.peek with
      | .error e => ⟨entries, anchors, some (.wellFormedness e), true⟩
      | .ok _ => ⟨entries, anchors, none, !isOver rest⟩

/-- How many bytes lie before the first character that may not stand in a text. -/
def firstControl? (chars : List Char) : Option Nat :=
  match chars.span isAllowed with
  | (_, []) => none
  | (allowed, _) => some (allowed.foldr (fun c n => c.utf8Size + n) 0)

/-- The first document of a text. -/
def ofSource (chars : List Char) : Document :=
  match firstControl? chars with
  | some offset => broken (.control offset)
  | none => ofFeed (Feed.ofSource chars)

end Document

end Evomark.Yaml
