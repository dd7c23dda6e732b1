import Evomark.Table
import Evomark.Toml
/-!
# Trees of settings

Settings come in layers, each a tree; `Setting.assign` puts the entries of one over another.
Groups are joined entry by entry, and anything else is replaced. A `SettingPath` leads to one
setting; groups and lists that are missing on the way begin to be (`Setting.set`).
-/

namespace Evomark

/-- A setting, or a group of settings. -/
inductive Setting
  /-- A place that has been made but not filled. -/
  | unset
  | truth (value : Bool)
  | integer (value : Int)
  | real (value : Real)
  | text (value : String)
  | list (items : List Setting)
  | group (entries : List (String × Setting))
  deriving Inhabited, Repr

namespace Setting

/-! ## From TOML -/

mutual

/-- The setting that a TOML value denotes. -/
def ofToml : Toml → Setting
  | .text s => text s
  | .integer n => integer n
  | .real x => real x
  | .truth b => truth b
  | .moment s => text s
  | .array items => list (ofItems items)
  | .table entries => group (ofEntries entries)

/-- The settings that items denote. -/
def ofItems : List Toml → List Setting
  | [] => []
  | item :: items => ofToml item :: ofItems items

/-- The group that entries denote. -/
def ofEntries : List (String × Toml) → Table Setting
  | [] => []
  | (key, value) :: entries => Table.insert key (ofToml value) (ofEntries entries)

end

/-! ## Layers -/

/-- The entries of a group; anything else has none. -/
def entries : Setting → Table Setting
  | group entries => entries
  | _ => []

/-- The items of a list; anything else has none. -/
def items : Setting → List Setting
  | list items => items
  | _ => []

/-- The group `node` with `value` under `key`. What is no group becomes one. -/
def put (node : Setting) (key : String) (value : Setting) : Setting :=
  group (Table.insert key value node.entries)

/-- The entry of a group under `key`. -/
def get? (node : Setting) (key : String) : Option Setting := Table.get? key node.entries

mutual

/-- The group `node` with `value` laid over what is under `key`. -/
def assign (key : String) : (value node : Setting) → Setting
  | .group entries, node => node.put key (assignAll entries ((node.get? key).getD (.group [])))
  | .unset, node => node.put key .unset
  | .truth b, node => node.put key (.truth b)
  | .integer n, node => node.put key (.integer n)
  | .real x, node => node.put key (.real x)
  | .text s, node => node.put key (.text s)
  | .list items, node => node.put key (.list items)

/-- `node` with entries laid over it. -/
def assignAll : (entries : List (String × Setting)) → (node : Setting) → Setting
  | [], node => node
  | (key, value) :: entries, node => assignAll entries (assign key value node)

end

end Setting

/-! ## Paths -/

/-- A step from a setting to one inside it. -/
inductive SettingStep
  | member (name : String)
  /-- An item of a list, counted from the end if negative. -/
  | item (index : Int)
  deriving DecidableEq, Repr

/-- The way to a setting. -/
abbrev SettingPath := List SettingStep

namespace SettingPath

/-- A character of the names in a path. -/
def isNameChar (c : Char) : Bool :=
  ('a' ≤ c && c ≤ 'z') || ('A' ≤ c && c ≤ 'Z') || ('0' ≤ c && c ≤ '9')
    || c == ' ' || c == '_' || c == '-'

/-- A decimal digit. -/
def isDigit (c : Char) : Bool := '0' ≤ c && c ≤ '9'

/-- A space or a tab. -/
def isBlank (c : Char) : Bool := c == ' ' || c == '\t'

/-- An index up to the closing bracket, and what is left after it. -/
def readIndex? (cs : List Char) : Option (Int × List Char) :=
  let cs := cs.dropWhile isBlank
  let (negative, cs) := match cs with | '-' :: rest => (true, rest) | cs => (false, cs)
  let digits := cs.takeWhile isDigit
  let n : Nat := digits.foldl (fun n d => n * 10 + (d.toNat - '0'.toNat)) 0
  match digits, (cs.dropWhile isDigit).dropWhile isBlank with
  | _ :: _, ']' :: rest =>
    if n < 0x8000_0000_0000_0000 || (negative && n = 0x8000_0000_0000_0000) then
      some (if negative then -n else n, rest)
    else none
  | _, _ => none

/-- The steps after the first. Each is a point and a name, or an index in brackets. `fuel` is the
number of characters. -/
def readSteps? : (fuel : Nat) → List Char → Option SettingPath
  | _, [] => some []
  | 0, _ :: _ => none
  | fuel + 1, '.' :: cs =>
    let name := cs.takeWhile isNameChar
    if name.isEmpty then none
    else (readSteps? fuel (cs.dropWhile isNameChar)).map (.member (String.ofList name) :: ·)
  | fuel + 1, '[' :: cs =>
    match readIndex? cs with
    | some (index, rest) => (readSteps? fuel rest).map (.item index :: ·)
    | none => none
  | _ + 1, _ => none

/-- The path that a text denotes: a name and further steps. -/
def ofText? (text : String) : Option SettingPath :=
  readSteps? (text.length + 1) ('.' :: text.toList)

end SettingPath

namespace Setting

/-- The place of an index in a list of `length` items. -/
def placeOf (length : Nat) (index : Int) : Nat :=
  if index < 0 then length - index.natAbs else index.toNat

/-- `items` with the item at `place` changed, and filled up to there. -/
def changeItem (change : Setting → Setting) : (place : Nat) → (items : List Setting) → List Setting
  | 0, [] => [change unset]
  | 0, item :: items => change item :: items
  | place + 1, [] => unset :: changeItem change place []
  | place + 1, item :: items => item :: changeItem change place items

/-- `node` with `value` at the end of a path. An item is replaced; a member is laid over. -/
def set (value : Setting) : SettingPath → (node : Setting) → Setting
  | [], node => node
  | [.member name], node => assign name value node
  | [.item index], node =>
    list (changeItem (fun _ => value) (placeOf node.items.length index) node.items)
  | .member name :: path, node => node.put name (set value path ((node.get? name).getD unset))
  | .item index :: path, node =>
    list (changeItem (set value path) (placeOf node.items.length index) node.items)

/-- `node` with an entry of a file laid over it. A key that is a path leads to its setting. -/
def addEntry (key : String) (value node : Setting) : Setting :=
  match SettingPath.ofText? key with
  | some path => set value path node
  | none => assign key value node

/-- `node` with a layer over it. -/
def addLayer (node layer : Setting) : Setting :=
  layer.entries.foldl (fun node (key, value) => addEntry key value node) node

end Setting

end Evomark
