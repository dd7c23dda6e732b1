import Evomark.Yaml.Document
import Evomark.Yaml.Plain
/-!
# Reading YAML

`Yaml.read` gives the value of a text that is one YAML document. Collections may be nested 128
deep. An alias stands for the value at its anchor; how often aliases may be followed is bounded
by the length of the document. A key is the text of a scalar, whatever its form, and the last
value of a key stays.
-/

namespace Evomark.Yaml

/-- What is left of the entries of a document, and how many aliases have been followed. -/
structure Place where
  entries : List (Entry × Mark)
  jumps : Nat

/-- A reader moves through the entries of a document. -/
abbrev Reading (α : Type) := StateT Place (Except Error) α

namespace Document

/-- The error met after the last entry. -/
def finalError (d : Document) : Error := d.fault.getD .severalDocuments

/-- The next entry, which stays. -/
def peek (d : Document) : Reading (Entry × Mark) := do
  match (← get).entries with
  | [] => throw d.finalError
  | entry :: _ => return entry

/-- The next entry. -/
def next (d : Document) : Reading (Entry × Mark) := do
  let entry ← d.peek
  modify fun place => { place with entries := place.entries.tail }
  return entry

/-- How often aliases may be followed for each entry. -/
def jumpsPerEntry : Nat := 100

/-- Reads at an anchor, and continues after the alias. -/
def follow {α : Type} (d : Document) (number : Nat) (read : Reading α) : Reading α := do
  let place ← get
  let jumps := place.jumps + 1
  if jumps > d.entries.length * jumpsPerEntry then throw .tooManyAliases
  set (⟨d.entries.drop ((d.anchors.target? number).getD 0), jumps⟩ : Place)
  let value ← read
  modify fun after => { after with entries := place.entries }
  return value

/-- The next entry, or the one at the anchor it stands for, given to `read`. -/
def nextValue {α : Type} (d : Document) (read : Entry → Mark → Reading α) : Reading α := do
  let (entry, mark) ← d.next
  match entry with
  | .aliasTo number =>
    d.follow number do
      let (entry, mark) ← d.next
      read entry mark
  | _ => read entry mark

/-- The text of a scalar that stands as a key. -/
def keyOf (expected : String) (path : List PathStep) (entry : Entry) (mark : Mark) :
    Reading String :=
  match entry with
  | .scalar _ text _ => return text
  | .sequenceStart _ => throw (.mismatch (.keyNotScalar "sequence" expected) path mark)
  | _ => throw (.mismatch (.keyNotScalar "map" expected) path mark)

/-- The step from a mapping to the value of a key. -/
def stepOf : Entry → PathStep
  | .scalar _ text _ => .key text
  | _ => .unknown

/-- The items of a sequence, each read by `read`, up to its end. The bound is met by the number of
entries. -/
def readItems (d : Document) (read : List PathStep → Reading Json) (path : List PathStep) :
    (bound index : Nat) → Reading (List Json)
  | 0, _ => throw d.finalError
  | bound + 1, index => do
    if (← d.peek).1 = .sequenceEnd then
      let _ ← d.next
      return []
    else
      let item ← read (.item index :: path)
      return item :: (← d.readItems read path bound (index + 1))

/-- The entries of a mapping up to its end, added to `fields`. -/
def readFields (d : Document) (read : List PathStep → Reading Json) (path : List PathStep) :
    (bound : Nat) → (expected : String) → Table Json → Reading (Table Json)
  | 0, _, _ => throw d.finalError
  | bound + 1, expected, fields => do
    let (entry, _) ← d.peek
    if entry = .mappingEnd then
      let _ ← d.next
      return fields
    else
      let key ← d.nextValue (keyOf expected path)
      let value ← read (stepOf entry :: path)
      d.readFields read path bound "a string" (Table.insert key value fields)

/-- The value that starts with an entry. The values in a collection are read by `inner`, if
collections may be nested here. -/
def valueOf (d : Document) (inner : Option (List PathStep → Reading Json)) (path : List PathStep)
    (entry : Entry) (mark : Mark) : Reading Json := do
  let bound := (← get).entries.length + 1
  match entry, inner with
  | .scalar tag text plain, _ =>
    match scalarValue tag text plain with
    | .ok value => return value
    | .error cause => throw (.mismatch cause path mark)
  | .sequenceStart tag, inner =>
    if isLocalTag tag then throw (.mismatch .tagged path mark)
    match inner with
    | none => throw (.tooDeep mark)
    | some read => return .array (← d.readItems read path bound 0)
  | .mappingStart tag, inner =>
    if isLocalTag tag then throw (.mismatch .tagged path mark)
    match inner with
    | none => throw (.tooDeep mark)
    | some read => return .object (← d.readFields read path bound "a string key" [])
  | _, _ => throw d.finalError

/-- The value at `path`, with collections nested at most `depth` deep. -/
def readValue (d : Document) : (depth : Nat) → (path : List PathStep) → Reading Json
  | 0, path => d.nextValue (d.valueOf none path)
  | depth + 1, path => d.nextValue (d.valueOf (some (d.readValue depth)) path)

/-- The value of the whole document. An error in its data comes before one in its text. -/
def value (d : Document) : Except Error Json :=
  match (d.readValue 128 []).run ⟨d.entries, 0⟩ with
  | .error e => .error e
  | .ok (value, _) =>
    match d.fault with
    | some fault => .error fault
    | none => if d.followed then .error .severalDocuments else .ok value

end Document

/-- The value of a text that is one YAML document. -/
def read (source : String) : Except Error Json := (Document.ofSource source.toList).value

end Evomark.Yaml
