import Evomark.Yaml.Reader
import Evomark.Proofs.Json.Value
/-!
# Values of a document in YAML

What is read from a document in YAML is sound (`Yaml.isSound_of_read`): a whole number beyond 64 bits is no
value, and the fields of a mapping are put into a table key by key. This is followed through the readers by
`Yields P`, which says of a reader that all it gives satisfies `P`, wherever it starts.
-/

namespace Evomark.Yaml

open Json (IsSound areSound_iff fieldsSound_iff)

/-! ## What scalars denote -/

theorem isSound_null : Json.null.IsSound := by simp [IsSound]

theorem isSound_bool (b : Bool) : (Json.bool b).IsSound := by simp [IsSound]

theorem isSound_string (text : String) : (Json.string text).IsSound := (Json.isGood_string 0 text).sound

theorem isSound_of_integerValue? {n : Int} {value : Json} (h : integerValue? n = some (.ok value)) :
    value.IsSound := by
  unfold integerValue? at h
  split at h
  · rename_i hrange
    obtain rfl := Except.ok.inj (Option.some.inj h)
    rw [Bool.and_eq_true, decide_eq_true_eq, decide_eq_true_eq] at hrange
    rw [Json.int, IsSound]
    exact hrange
  · split at h <;> cases h

theorem isSound_of_floatValue? {text : String} {value : Json} (h : floatValue? text = some value) :
    value.IsSound := by
  unfold floatValue? at h
  split at h
  · obtain rfl := Option.some.inj h
    exact isSound_null
  · obtain ⟨x, -, rfl⟩ := Option.map_eq_some_iff.1 h
    rw [IsSound]
    exact trivial

theorem isSound_of_plainValue {text : String} {value : Json} (h : plainValue text = .ok value) :
    value.IsSound := by
  unfold plainValue at h
  split at h
  · obtain rfl := Except.ok.inj h
    exact isSound_null
  split at h
  · obtain rfl := Except.ok.inj h
    exact isSound_bool _
  split at h
  · rename_i hint
    obtain ⟨n, -, hn⟩ := Option.bind_eq_some_iff.1 (h ▸ hint)
    exact isSound_of_integerValue? hn
  split at h
  · obtain rfl := Except.ok.inj h
    exact isSound_string text
  · obtain rfl := Except.ok.inj h
    cases hfloat : floatValue? text with
    | none => exact isSound_string text
    | some value => exact isSound_of_floatValue? hfloat

theorem isSound_of_typedValue? {tag text : String} {value : Json} (h : typedValue? tag text = some (.ok value)) :
    value.IsSound := by
  -- what has another type is an error
  have hchecked {found : Option (Except Mismatch Json)} {e : Mismatch}
      (h : some (found.getD (.error e)) = some (.ok value)) : found = some (.ok value) := by
    cases found with
    | none => cases h
    | some result => exact h
  unfold typedValue? at h
  simp only at h
  split at h
  · obtain ⟨b, -, hb⟩ := Option.map_eq_some_iff.1 (hchecked h)
    obtain rfl := Except.ok.inj hb
    exact isSound_bool b
  split at h
  · obtain ⟨n, -, hn⟩ := Option.bind_eq_some_iff.1 (hchecked h)
    exact isSound_of_integerValue? hn
  split at h
  · obtain ⟨x, hx, hok⟩ := Option.map_eq_some_iff.1 (hchecked h)
    obtain rfl := Except.ok.inj hok
    exact isSound_of_floatValue? hx
  split at h
  · have hnull := hchecked h
    split at hnull
    · obtain rfl := Except.ok.inj (Option.some.inj hnull)
      exact isSound_null
    · cases hnull
  · cases h

theorem isSound_of_scalarValue {tag : Option String} {text : String} {plain : Bool} {value : Json}
    (h : scalarValue tag text plain = .ok value) : value.IsSound := by
  unfold scalarValue at h
  split at h
  · split at h
    · exact isSound_of_plainValue h
    · obtain rfl := Except.ok.inj h
      exact isSound_string text
  · rename_i name
    split at h
    · cases h
    · cases htyped : typedValue? name text with
      | none =>
        rw [htyped] at h
        obtain rfl := Except.ok.inj h
        exact isSound_string text
      | some result =>
        rw [htyped] at h
        exact isSound_of_typedValue? (htyped.trans (congrArg some h))

/-! ## What readers give -/

/-- All that the reader gives satisfies `P`. -/
def Yields {α : Type} (P : α → Prop) (reading : Reading α) : Prop :=
  ∀ place value after, reading.run place = .ok (value, after) → P value

section

variable {α β : Type} {P : α → Prop} {Q : β → Prop}

theorem Yields.pure {x : α} (h : P x) : Yields P (pure x) := by
  intro place value after hrun
  obtain ⟨rfl, -⟩ := Prod.mk.inj (Except.ok.inj hrun)
  exact h

theorem yields_throw (e : Error) : Yields P (throw e) := by
  intro place value after hrun
  cases hrun

/-- A reader after another one. -/
theorem Yields.bind {first : Reading α} {next : α → Reading β} (h : Yields P first)
    (hnext : ∀ x, P x → Yields Q (next x)) : Yields Q (first >>= next) := by
  intro place value after hrun
  rw [StateT.run_bind] at hrun
  cases hfirst : first.run place with
  | error e =>
    rw [hfirst] at hrun
    cases hrun
  | ok r =>
    rw [hfirst] at hrun
    exact hnext r.1 (h place r.1 r.2 hfirst) r.2 value after hrun

/-- A reader after one whose result does not matter. -/
theorem yields_bind {first : Reading α} {next : α → Reading β} (hnext : ∀ x, Yields Q (next x)) :
    Yields Q (first >>= next) :=
  Yields.bind (P := fun _ => True) (fun _ _ _ _ => trivial) fun x _ => hnext x

end

namespace Document

variable (d : Document) {α : Type} {P : α → Prop}

theorem yields_follow {read : Reading α} (number : Nat) (h : Yields P read) : Yields P (d.follow number read) := by
  unfold follow
  refine yields_bind fun place => ?_
  simp only
  split
  · exact yields_throw _
  · exact yields_bind fun _ => h.bind fun x hx => yields_bind fun _ => .pure hx

theorem yields_nextValue {read : Entry → Mark → Reading α} (h : ∀ entry mark, Yields P (read entry mark)) :
    Yields P (d.nextValue read) := by
  unfold nextValue
  refine yields_bind fun r => ?_
  simp only
  split
  · exact d.yields_follow _ (yields_bind fun r => h _ _)
  · exact h _ _

section

variable {read : List PathStep → Reading Json} (h : ∀ path, Yields IsSound (read path))

include h

theorem yields_readItems (path : List PathStep) (bound index : Nat) :
    Yields (∀ item ∈ ·, item.IsSound) (d.readItems read path bound index) := by
  induction bound generalizing index with
  | zero => exact yields_throw _
  | succ bound ih =>
    unfold readItems
    refine yields_bind fun r => ?_
    split
    · exact yields_bind fun _ => .pure (by simp)
    · refine (h _).bind fun item hitem => (ih (index + 1)).bind fun items hitems => .pure ?_
      exact List.forall_mem_cons.2 ⟨hitem, hitems⟩

theorem yields_readFields (path : List PathStep) (bound : Nat) (expected : String) {fields : Table Json}
    (hfields : Table.Holds IsSound fields) :
    Yields (Table.Holds IsSound) (d.readFields read path bound expected fields) := by
  induction bound generalizing expected fields with
  | zero => exact yields_throw _
  | succ bound ih =>
    unfold readFields
    refine yields_bind fun r => ?_
    simp only
    split
    · exact yields_bind fun _ => .pure hfields
    · exact yields_bind fun key => (h _).bind fun value hvalue => ih _ (hfields.insert key hvalue)

end

theorem yields_valueOf {inner : Option (List PathStep → Reading Json)}
    (h : ∀ read, inner = some read → ∀ path, Yields IsSound (read path)) (path : List PathStep) (entry : Entry)
    (mark : Mark) : Yields IsSound (d.valueOf inner path entry mark) := by
  unfold valueOf
  refine yields_bind fun place => ?_
  simp only
  split
  · split
    · rename_i hvalue
      exact .pure (isSound_of_scalarValue hvalue)
    · exact yields_throw _
  · split
    · exact yields_throw _
    · split
      · exact yields_throw _
      · refine (d.yields_readItems (h _ rfl) path _ 0).bind fun items hitems => .pure ?_
        rw [IsSound]
        exact areSound_iff.2 hitems
  · split
    · exact yields_throw _
    · split
      · exact yields_throw _
      · refine (d.yields_readFields (h _ rfl) path _ _ Table.holds_nil).bind fun fields hfields => .pure ?_
        rw [IsSound]
        exact ⟨hfields.ordered, fieldsSound_iff.2 hfields.values⟩
  · exact yields_throw _

theorem yields_readValue (depth : Nat) (path : List PathStep) : Yields IsSound (d.readValue depth path) := by
  induction depth generalizing path with
  | zero => exact d.yields_nextValue (d.yields_valueOf (by simp) path)
  | succ depth ih =>
    refine d.yields_nextValue (d.yields_valueOf (fun read hread => ?_) path)
    obtain rfl := Option.some.inj hread
    exact ih

end Document

/-- What is read is sound. -/
theorem isSound_of_read {source : String} {value : Json} (h : read source = .ok value) : value.IsSound := by
  unfold read Document.value at h
  split at h
  · cases h
  · rename_i hread
    split at h
    · cases h
    · split at h
      · cases h
      · obtain rfl := Except.ok.inj h
        exact Document.yields_readValue _ 128 [] _ _ _ hread

end Evomark.Yaml
