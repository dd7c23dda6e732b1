import Evomark.Proofs.Json.Value
import Evomark.Proofs.Markup.Reader
import Evomark.Proofs.Yaml.Value
/-!
# Settings over settings

The dictionaries of configuration blocks are laid over the settings of their namespaces one after the other.
Of the values that are given for a key the last stays: what is laid over settings wins over them
(`Table.get?_union`), so under each namespace there is in the end the union of its dictionaries, in which the
later ones win (`isUnion_joined`), and a namespace is there if it was at the start or has a dictionary
(`get?_overlay`). This needs the keys of each dictionary to differ, which they do since they are in order
whatever language it is written in (`ordered_of_readDictionary`).
-/

namespace Evomark

/-! ## Unions of tables -/

namespace Table

variable {α : Type}

theorem ordered_union {table : Table α} (h : Ordered table) (more : Table α) : Ordered (table.union more) := by
  induction more generalizing table with
  | nil => exact h
  | cons entry rest ih => exact ih (ordered_insert h)

/-- Nothing is under a key that comes before all others. -/
theorem get?_of_lt {key : String} {table : Table α} (h : ∀ entry ∈ table, key < entry.1) :
    table.get? key = none := by
  induction table with
  | nil => rfl
  | cons entry rest ih =>
    obtain ⟨hentry, hrest⟩ := List.forall_mem_cons.1 h
    rw [get?, if_neg fun heq => String.lt_irrefl _ (heq ▸ hentry), ih hrest]

/-- What a table is united with wins over what is in it. -/
theorem get?_union {more : Table α} (h : Ordered more) (table : Table α) (key : String) :
    (table.union more).get? key = (more.get? key).or (table.get? key) := by
  induction more generalizing table with
  | nil => rfl
  | cons entry rest ih =>
    obtain ⟨hfirst, hrest⟩ := List.pairwise_cons.1 h
    show ((table.insert entry.1 entry.2).union rest).get? key = _
    rw [ih hrest, get?_insert, get?]
    by_cases heq : entry.1 = key
    · rw [if_pos heq, if_pos heq, get?_of_lt (heq ▸ hfirst)]
      rfl
    · rw [if_neg heq, if_neg heq]

end Table

namespace Markup

/-! ## Dictionaries -/

theorem isSound_of_dictionaryValue {raw language : String} {value : Json}
    (h : dictionaryValue raw language = .ok value) : value.IsSound := by
  have hread {ε : Type} {wrap : ε → DictionaryError} {result : Except ε Json}
      (h : result.mapError wrap = .ok value) : result = .ok value := by
    cases result with
    | error e => cases h
    | ok found => rw [Except.ok.inj h]
  unfold dictionaryValue at h
  split at h
  · exact (Json.good_of_read (hread h)).sound
  split at h
  · exact (Json.good_of_read (hread h)).sound
  split at h
  · exact Yaml.isSound_of_read (hread h)
  · cases h

/-- The keys of a dictionary are in order. -/
theorem ordered_of_readDictionary {raw language : String} {dictionary : Table Json}
    (h : readDictionary raw language = .ok dictionary) : Table.Ordered dictionary := by
  unfold readDictionary at h
  split at h
  · cases h
  · rename_i hvalue
    obtain rfl := Except.ok.inj h
    have hsound := isSound_of_dictionaryValue hvalue
    rw [Json.IsSound] at hsound
    exact hsound.1
  · obtain rfl := Except.ok.inj h
    exact List.Pairwise.nil
  · cases h

/-- The union of dictionaries: of the values that they give for a key the last one stays. -/
structure IsUnion (dictionaries : List (Table Json)) (fields : Table Json) : Prop where
  ordered : Table.Ordered fields
  last : ∀ key, fields.get? key = dictionaries.reverse.findSome? (Table.get? key)

/-- Dictionaries laid over each other, the first at the bottom. -/
def joined (dictionaries : List (Table Json)) : Table Json := dictionaries.foldl Table.union []

theorem joined_append (dictionaries : List (Table Json)) (dictionary : Table Json) :
    joined (dictionaries ++ [dictionary]) = Table.union (joined dictionaries) dictionary := by
  rw [joined, List.foldl_append]
  rfl

theorem isUnion_joined {dictionaries : List (Table Json)} (h : ∀ d ∈ dictionaries, Table.Ordered d) :
    IsUnion dictionaries (joined dictionaries) := by
  induction dictionaries using List.reverseRecOn with
  | nil => exact ⟨List.Pairwise.nil, fun _ => rfl⟩
  | append_singleton dictionaries dictionary ih =>
    obtain ⟨hbefore, hlast⟩ := List.forall_mem_append.1 h
    have ih := ih hbefore
    rw [joined_append]
    refine ⟨Table.ordered_union ih.ordered dictionary, fun key => ?_⟩
    rw [Table.get?_union (hlast dictionary List.mem_cons_self), ih.last, List.reverse_append]
    simp only [List.reverse_cons, List.reverse_nil, List.nil_append, List.cons_append, List.findSome?_cons]
    cases dictionary.get? key <;> rfl

/-! ## Namespaces -/

/-- The dictionaries of a namespace. -/
def dictionariesOf (space : String) (settings : List (String × Table Json)) : List (Table Json) :=
  settings.filterMap fun (name, dictionary) => if name = space then some dictionary else none

theorem dictionariesOf_append (space name : String) (settings : List (String × Table Json))
    (dictionary : Table Json) :
    dictionariesOf space (settings ++ [(name, dictionary)]) =
      dictionariesOf space settings ++ if name = space then [dictionary] else [] := by
  rw [dictionariesOf, List.filterMap_append]
  by_cases heq : name = space <;> simp [dictionariesOf, heq]

theorem ordered_of_mem_dictionariesOf {space : String} {settings : List (String × Table Json)}
    (h : ∀ entry ∈ settings, entry.2.Ordered) : ∀ d ∈ dictionariesOf space settings, Table.Ordered d := by
  intro d hd
  obtain ⟨entry, hentry, hspace⟩ := List.mem_filterMap.1 hd
  simp only at hspace
  split at hspace
  · obtain rfl := Option.some.inj hspace
    exact h entry hentry
  · cases hspace

theorem overlay_append (config : Table Json) (settings : List (String × Table Json)) (space : String)
    (dictionary : Table Json) :
    overlay config (settings ++ [(space, dictionary)]) =
      mergeSettings (overlay config settings) space dictionary := by
  rw [overlay, List.foldl_append]
  rfl

theorem ordered_mergeSettings {config : Table Json} (h : config.Ordered) (space : String) (settings : Table Json) :
    (mergeSettings config space settings).Ordered := by
  unfold mergeSettings
  split <;> exact Table.ordered_insert h

theorem ordered_overlay {config : Table Json} (h : config.Ordered) (settings : List (String × Table Json)) :
    (overlay config settings).Ordered := by
  induction settings generalizing config with
  | nil => exact h
  | cons entry rest ih => exact ih (ordered_mergeSettings h entry.1 entry.2)

/-- Only the namespace that settings are laid over changes. -/
theorem get?_mergeSettings {config : Table Json} {name : String} {fields : Table Json}
    (h : (config.get? name).getD (.object []) = .object fields) (dictionary : Table Json) (space : String) :
    (mergeSettings config name dictionary).get? space =
      if name = space then some (.object (Table.union fields dictionary)) else config.get? space := by
  unfold mergeSettings
  split
  · rename_i existing hname
    rw [hname] at h
    obtain rfl := Json.object.inj h
    exact Table.get?_insert ..
  · rename_i hother hname
    rw [hname] at h
    exact absurd h (hother fields)
  · rename_i hname
    rw [hname] at h
    obtain rfl := Json.object.inj h
    exact Table.get?_insert ..

/-- The settings of a namespace are its dictionaries laid over each other. -/
theorem get?_overlay {initial : Table Json} (h : Table.Holds (· = Json.object []) initial)
    (settings : List (String × Table Json)) (space : String) :
    (overlay initial settings).get? space =
      if (initial.get? space).isSome ∨ dictionariesOf space settings ≠ [] then
        some (.object (joined (dictionariesOf space settings)))
      else none := by
  induction settings using List.reverseRecOn generalizing space with
  | nil =>
    show initial.get? space = _
    cases hspace : initial.get? space with
    | none => rfl
    | some value =>
      obtain rfl := h.of_get? hspace
      rfl
  | append_singleton settings entry ih =>
    obtain ⟨name, dictionary⟩ := entry
    have hname : ((overlay initial settings).get? name).getD (.object []) =
        .object (joined (dictionariesOf name settings)) := by
      rw [ih name]
      split
      · rfl
      · rename_i hnone
        rw [not_not.1 (not_or.1 hnone).2]
        rfl
    rw [overlay_append, get?_mergeSettings hname, ih space, dictionariesOf_append]
    by_cases heq : name = space
    · subst heq
      rw [if_pos rfl, if_pos rfl, if_pos (.inr (by simp)), joined_append]
    · rw [if_neg heq, if_neg heq, List.append_nil]

end Markup

end Evomark
