/-!
# Tables ordered by key

A table is a list of keys with their values, the keys strictly increasing. Strings are ordered
by code point, which is also the order of their UTF-8 bytes. `Table.insert` keeps the order
(`ordered_insert`) and replaces the value of a key that is already there (`get?_insert`).
-/

namespace Evomark

/-- Values under strictly increasing keys. -/
abbrev Table (α : Type) := List (String × α)

namespace Table

variable {α : Type}

/-- The value under `key`. -/
def get? (key : String) : Table α → Option α
  | [] => none
  | (k, v) :: rest => if k = key then some v else get? key rest

/-- `table` with `value` under `key`. -/
def insert (key : String) (value : α) : Table α → Table α
  | [] => [(key, value)]
  | (k, v) :: rest =>
    if key < k then (key, value) :: (k, v) :: rest
    else if k = key then (key, value) :: rest
    else (k, v) :: insert key value rest

/-- The entries of a list, inserted in order: the last value given for a key stays. -/
def ofList (entries : List (String × α)) : Table α :=
  entries.foldl (fun table (key, value) => insert key value table) []

/-- `table` with the entries of `extra`, which win over its own. -/
def union (table extra : Table α) : Table α :=
  extra.foldl (fun table (key, value) => insert key value table) table

/-- The keys, in order. -/
def keys (table : Table α) : List String := table.map (·.1)

/-- The keys strictly increase. -/
def Ordered (table : Table α) : Prop := table.Pairwise (·.1 < ·.1)

/-! ## Insertion -/

/-- A value that has just been put in is found, and other keys keep theirs. -/
theorem get?_insert (key k : String) (value : α) (table : Table α) :
    get? k (insert key value table) = if key = k then some value else get? k table := by
  induction table with
  | nil => simp [insert, get?]
  | cons entry rest ih =>
    obtain ⟨k', v'⟩ := entry
    simp only [insert]
    split
    · simp [get?]
    · split
      · rename_i h
        subst h
        simp only [get?]
        split <;> simp_all
      · simp only [get?, ih]
        grind

/-- A key of a table that has grown is the new one or an old one. -/
theorem mem_keys_insert {key k : String} {value : α} {table : Table α} :
    k ∈ keys (insert key value table) ↔ k = key ∨ k ∈ keys table := by
  induction table with
  | nil => simp [insert, keys]
  | cons entry rest ih =>
    obtain ⟨k', v'⟩ := entry
    simp only [insert]
    split
    · simp [keys]
    · split
      · rename_i h
        subst h
        simp [keys]
      · simp only [keys, List.map_cons, List.mem_cons] at ih ⊢
        rw [ih]
        grind

/-- Insertion keeps the order. -/
theorem ordered_insert {key : String} {value : α} {table : Table α} (h : Ordered table) :
    Ordered (insert key value table) := by
  induction table with
  | nil => simp [insert, Ordered]
  | cons entry rest ih =>
    obtain ⟨k', v'⟩ := entry
    simp only [Ordered, List.pairwise_cons] at h ih ⊢
    simp only [insert]
    split
    · rename_i lt
      refine List.pairwise_cons.mpr ⟨fun e he => ?_, List.pairwise_cons.mpr h⟩
      rcases List.mem_cons.mp he with rfl | he
      · exact lt
      · exact String.lt_trans lt (h.1 e he)
    · split
      · rename_i eq
        subst eq
        exact List.pairwise_cons.mpr h
      · rename_i nlt ne
        refine List.pairwise_cons.mpr ⟨fun e he => ?_, ih h.2⟩
        have : e.1 ∈ keys (insert key value rest) := List.mem_map.mpr ⟨e, he, rfl⟩
        rcases mem_keys_insert.mp this with eq | mem
        · rw [eq]
          exact String.not_le.mp fun le => ne (String.le_antisymm nlt le)
        · obtain ⟨e', he', eq⟩ := List.mem_map.mp mem
          rw [← eq]
          exact h.1 e' he'

end Table

end Evomark
