import Evomark.Toml
/-!
# Tables under construction

The entries of a table may be given in several places of a text: below its header, by dotted keys,
and below the headers of tables inside it. A `Draft` is a table with what has been given so far,
and with how it came to be, which decides what may still be added: a header names a table once,
and dotted keys add only to tables that dotted keys began. Additions that are not allowed give
`none`.
-/

namespace Evomark.Toml

/-- How a table came to be. -/
inductive Origin
  /-- It is the whole text, or has a header, or is a value. -/
  | header
  /-- A header of a table inside it was met. -/
  | implied
  /-- A dotted key led through it. -/
  | dotted
  deriving DecidableEq, Repr

mutual

/-- A table under construction. -/
inductive Draft
  | mk (origin : Origin) (entries : List (String × DraftItem))

/-- An entry of a table under construction. -/
inductive DraftItem
  | value (value : Toml)
  | table (draft : Draft)
  /-- An array of tables: those before the last, latest first, and the last. -/
  | tables (earlier : List Draft) (last : Draft)

end

namespace Draft

/-- The empty table of an origin. -/
def empty (origin : Origin) : Draft := mk origin []

/-- How the table came to be. -/
def origin : Draft → Origin
  | mk origin _ => origin

/-- The entries so far, latest first. -/
def entries : Draft → List (String × DraftItem)
  | mk _ entries => entries

/-- The entry under a key. -/
def get? (key : String) (d : Draft) : Option DraftItem := d.entries.lookup key

/-- The table with `item` under `key`. -/
def put (key : String) (item : DraftItem) (d : Draft) : Draft :=
  mk d.origin ((key, item) :: d.entries.filter (·.1 != key))

/-- Changes the table at a path by `change`. Tables that are missing on the way begin to be, and an
array of tables stands for its last. -/
def modify? (origin : Origin) (change : Draft → Option Draft) : List String → Draft → Option Draft
  | [], d => change d
  | key :: path, d =>
    match d.get? key with
    | none => (modify? origin change path (empty origin)).map fun t => d.put key (.table t)
    | some (.value _) => none
    | some (.table t) =>
      if origin = .dotted && t.origin = .header then none
      else (modify? origin change path t).map fun t => d.put key (.table t)
    | some (.tables earlier last) =>
      (modify? origin change path last).map fun t => d.put key (.tables earlier t)

/-- Adds a value under a new key, `path` being the parts of the key before the last. -/
def assign? (path : List String) (key : String) (value : Toml) (d : Draft) : Option Draft :=
  d.modify? .dotted (fun t =>
    if (t.origin == .dotted) == path.isEmpty || (t.get? key).isSome then none
    else some (t.put key (.value value))) path

/-- Begins the table of a header. -/
def openTable? (path : List String) (key : String) (d : Draft) : Option Draft :=
  d.modify? .implied (fun t =>
    match t.get? key with
    | none => some (t.put key (.table (empty .header)))
    | some (.table (mk .implied entries)) => some (t.put key (.table (mk .header entries)))
    | some _ => none) path

/-- Begins the next table of an array of tables. -/
def openNext? (path : List String) (key : String) (d : Draft) : Option Draft :=
  d.modify? .implied (fun t =>
    match t.get? key with
    | none => some (t.put key (.tables [] (empty .header)))
    | some (.tables earlier last) => some (t.put key (.tables (last :: earlier) (empty .header)))
    | some _ => none) path

mutual

/-- The table with the entries given so far. -/
def toToml : Draft → Toml
  | mk _ entries => .table (entriesToToml entries)

/-- Entries as values, the first given first. -/
def entriesToToml : List (String × DraftItem) → List (String × Toml)
  | [] => []
  | (key, item) :: entries => entriesToToml entries ++ [(key, itemToToml item)]

/-- An entry as a value. -/
def itemToToml : DraftItem → Toml
  | .value value => value
  | .table draft => toToml draft
  | .tables earlier last => .array (tablesToToml earlier ++ [toToml last])

/-- Tables as values, in the opposite order. -/
def tablesToToml : List Draft → List Toml
  | [] => []
  | draft :: drafts => tablesToToml drafts ++ [toToml draft]

end

end Draft

end Evomark.Toml
