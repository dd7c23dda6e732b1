import Evomark.Proofs.Json.Value
/-!
# Values with other strings

`Json.mapStrings f` changes the strings and the keys of a value by `f`. The fields of an object are put
into a table again, since their keys may change places or become equal; where none does, that is the
table they are in (`ofList_of_ordered`).
-/

namespace Evomark

namespace Table

variable {α : Type}

/-- A value under a key beyond all others goes to the end. -/
theorem insert_last {key : String} (value : α) {table : Table α} (h : ∀ entry ∈ table, entry.1 < key) :
    Table.insert key value table = table ++ [(key, value)] := by
  induction table with
  | nil => rfl
  | cons entry rest ih =>
    obtain ⟨hentry, hrest⟩ := List.forall_mem_cons.1 h
    have hlt : ¬key < entry.1 := fun hlt => String.lt_irrefl _ (String.lt_trans hlt hentry)
    have hne : entry.1 ≠ key := fun heq => String.lt_irrefl _ (heq ▸ hentry)
    rw [Table.insert, if_neg hlt, if_neg hne, ih hrest]
    rfl

/-- Entries whose keys follow those of a table in order are put behind them. -/
theorem union_of_ordered {table more : Table α} (h : Ordered (table ++ more)) :
    union table more = table ++ more := by
  induction more generalizing table with
  | nil => rw [union, List.foldl_nil, List.append_nil]
  | cons entry rest ih =>
    have hlast : ∀ e ∈ table, e.1 < entry.1 := fun e he =>
      (List.pairwise_append.1 h).2.2 e he entry List.mem_cons_self
    show union (table.insert entry.1 entry.2) rest = _
    rw [insert_last entry.2 hlast, ih (by simpa using h), List.append_assoc, List.singleton_append]

/-- Entries whose keys are in order are a table as they stand. -/
theorem ofList_of_ordered {entries : List (String × α)} (h : Ordered entries) :
    ofList entries = entries :=
  @union_of_ordered _ [] _ h

end Table

namespace Json

mutual

/-- The value with `f` of its strings and of its keys. Of fields whose keys become equal the last
stays. -/
def mapStrings (f : String → String) : Json → Json
  | null => null
  | bool b => bool b
  | number n => number n
  | string s => string (f s)
  | array items => array (mapStringsItems f items)
  | object fields => object (Table.ofList (mapStringsFields f fields))

/-- `mapStrings` of each value of a list. -/
def mapStringsItems (f : String → String) : List Json → List Json
  | [] => []
  | item :: items => mapStrings f item :: mapStringsItems f items

/-- `f` of the key and `mapStrings` of the value of each field of a list. -/
def mapStringsFields (f : String → String) : List (String × Json) → List (String × Json)
  | [] => []
  | (key, value) :: fields => (f key, mapStrings f value) :: mapStringsFields f fields

end

variable (f : String → String)

theorem mapStringsItems_eq (items : List Json) : mapStringsItems f items = items.map (mapStrings f) := by
  induction items with
  | nil => rfl
  | cons item items ih => rw [mapStringsItems, ih, List.map_cons]

theorem mapStringsFields_eq (fields : List (String × Json)) :
    mapStringsFields f fields = fields.map (Prod.map f (mapStrings f)) := by
  induction fields with
  | nil => rfl
  | cons field fields ih =>
    rw [mapStringsFields, ih, List.map_cons]
    rfl

mutual

/-- A value whose keys are in order does not change if its strings do not. -/
theorem mapStrings_id : ∀ {value : Json}, value.IsSound → value.mapStrings id = value
  | null, _ | bool _, _ | number _, _ => by rw [mapStrings]
  | string _, _ => by rw [mapStrings, id]
  | array items, h => by
    rw [IsSound] at h
    rw [mapStrings, mapStringsItems_id h]
  | object fields, h => by
    rw [IsSound] at h
    rw [mapStrings, mapStringsFields_id h.2, Table.ofList_of_ordered h.1]

theorem mapStringsItems_id : ∀ {items : List Json}, AreSound items → mapStringsItems id items = items
  | [], _ => rfl
  | item :: items, h => by
    rw [AreSound] at h
    rw [mapStringsItems, mapStrings_id h.1, mapStringsItems_id h.2]

theorem mapStringsFields_id : ∀ {fields : List (String × Json)}, FieldsSound fields →
    mapStringsFields id fields = fields
  | [], _ => rfl
  | (key, value) :: fields, h => by
    rw [FieldsSound] at h
    rw [mapStringsFields, mapStrings_id h.1, mapStringsFields_id h.2]
    rfl

end

end Json

end Evomark
