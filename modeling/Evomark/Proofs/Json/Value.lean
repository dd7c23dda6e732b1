import Evomark.Json.Reader
/-!
# Values that have been read

A value that has been read is sound (`Json.IsSound`): its whole numbers are integers of 64 bits and the
keys of its objects are in order. It is nested no deeper than the reader goes (`Json.depth`), so what
`Json.read` gives is nested at most 127 deep (`good_of_read`).

`Gives P` says of a result that what has been read satisfies `P`, and is followed through the readers
from the numbers up.
-/

namespace Evomark

/-- A whole number is an integer of 64 bits, signed or unsigned. -/
def Number.InRange : Number → Prop
  | .integer n => Number.minInteger ≤ n ∧ n ≤ Number.maxInteger
  | .float _ => True

namespace Json

mutual

/-- How deep arrays and objects are nested in a value. -/
def depth : Json → Nat
  | array items => depthItems items + 1
  | object fields => depthFields fields + 1
  | _ => 0

/-- How deep arrays and objects are nested in the deepest of the values. -/
def depthItems : List Json → Nat
  | [] => 0
  | item :: items => max (depth item) (depthItems items)

/-- How deep arrays and objects are nested in the deepest of the fields. -/
def depthFields : List (String × Json) → Nat
  | [] => 0
  | (_, value) :: fields => max (depth value) (depthFields fields)

end

mutual

/-- Whole numbers are in range and the keys of objects in order. -/
def IsSound : Json → Prop
  | number n => n.InRange
  | array items => AreSound items
  | object fields => Table.Ordered fields ∧ FieldsSound fields
  | _ => True

/-- `IsSound` of each value of a list. -/
def AreSound : List Json → Prop
  | [] => True
  | item :: items => IsSound item ∧ AreSound items

/-- `IsSound` of each field of a list. -/
def FieldsSound : List (String × Json) → Prop
  | [] => True
  | (_, value) :: fields => IsSound value ∧ FieldsSound fields

end

/-- A sound value, nested at most `n` deep. -/
structure IsGood (n : Nat) (value : Json) : Prop where
  sound : value.IsSound
  depth_le : value.depth ≤ n

theorem areSound_iff {items : List Json} : AreSound items ↔ ∀ item ∈ items, item.IsSound := by
  induction items with
  | nil => simp [AreSound]
  | cons item rest ih => rw [AreSound, ih, List.forall_mem_cons]

theorem fieldsSound_iff {fields : List (String × Json)} :
    FieldsSound fields ↔ ∀ entry ∈ fields, entry.2.IsSound := by
  induction fields with
  | nil => simp [FieldsSound]
  | cons entry rest ih => rw [FieldsSound, ih, List.forall_mem_cons]

theorem depthItems_le_iff {items : List Json} {n : Nat} :
    depthItems items ≤ n ↔ ∀ item ∈ items, item.depth ≤ n := by
  induction items with
  | nil => simp [depthItems]
  | cons item rest ih => rw [depthItems, Nat.max_le, ih, List.forall_mem_cons]

theorem depthFields_le_iff {fields : List (String × Json)} {n : Nat} :
    depthFields fields ≤ n ↔ ∀ entry ∈ fields, entry.2.depth ≤ n := by
  induction fields with
  | nil => simp [depthFields]
  | cons entry rest ih => rw [depthFields, Nat.max_le, ih, List.forall_mem_cons]

theorem isGood_string (n : Nat) (s : String) : IsGood n (string s) :=
  ⟨by simp [IsSound], by simp [depth]⟩

theorem isGood_array {n : Nat} {items : List Json} :
    IsGood (n + 1) (array items) ↔ ∀ item ∈ items, IsGood n item := by
  have hdepth : (array items).depth ≤ n + 1 ↔ ∀ item ∈ items, item.depth ≤ n := by
    rw [depth, Nat.add_le_add_iff_right, depthItems_le_iff]
  have hsound : (array items).IsSound ↔ ∀ item ∈ items, item.IsSound := by
    rw [IsSound, areSound_iff]
  constructor
  · intro h item hmem
    exact ⟨hsound.1 h.sound item hmem, hdepth.1 h.depth_le item hmem⟩
  · intro h
    exact ⟨hsound.2 fun item hmem => (h item hmem).sound,
      hdepth.2 fun item hmem => (h item hmem).depth_le⟩

/-- A value in which something can be nested is read one level further down. -/
theorem IsGood.exists_succ {n : Nat} {value : Json} (h : IsGood n value) (hd : 0 < value.depth) :
    ∃ m, n = m + 1 :=
  Nat.exists_eq_succ_of_ne_zero (Nat.ne_of_gt (Nat.lt_of_lt_of_le hd h.depth_le))

theorem isGood_object {n : Nat} {fields : List (String × Json)} :
    IsGood (n + 1) (object fields) ↔ Table.Ordered fields ∧ ∀ entry ∈ fields, IsGood n entry.2 := by
  have hdepth : (object fields).depth ≤ n + 1 ↔ ∀ entry ∈ fields, entry.2.depth ≤ n := by
    rw [depth, Nat.add_le_add_iff_right, depthFields_le_iff]
  have hsound : (object fields).IsSound ↔
      Table.Ordered fields ∧ ∀ entry ∈ fields, entry.2.IsSound := by
    rw [IsSound, fieldsSound_iff]
  constructor
  · intro h
    have hs := hsound.1 h.sound
    exact ⟨hs.1, fun entry hmem => ⟨hs.2 entry hmem, hdepth.1 h.depth_le entry hmem⟩⟩
  · intro h
    exact ⟨hsound.2 ⟨h.1, fun entry hmem => (h.2 entry hmem).sound⟩,
      hdepth.2 fun entry hmem => (h.2 entry hmem).depth_le⟩

end Json

/-! ## Tables -/

namespace Table

variable {α : Type} {P : α → Prop}

/-- An entry of a table that has grown is the new one or an old one. -/
theorem mem_insert {key : String} {value : α} {table : Table α} {entry : String × α}
    (h : entry ∈ insert key value table) : entry = (key, value) ∨ entry ∈ table := by
  induction table with
  | nil => simpa [insert] using h
  | cons first rest ih =>
    obtain ⟨k, v⟩ := first
    rw [insert] at h
    split at h
    · simpa using h
    · split at h
      · rcases List.mem_cons.1 h with h | h
        · exact .inl h
        · exact .inr (List.mem_cons_of_mem _ h)
      · rcases List.mem_cons.1 h with h | h
        · exact .inr (h ▸ List.mem_cons_self)
        · exact (ih h).imp_right (List.mem_cons_of_mem _)

theorem mem_of_get? {key : String} {value : α} {table : Table α} (h : get? key table = some value) :
    (key, value) ∈ table := by
  induction table with
  | nil => simp [get?] at h
  | cons first rest ih =>
    obtain ⟨k, v⟩ := first
    rw [get?] at h
    split at h
    · rename_i hk
      rw [← hk, ← Option.some.inj h]
      exact List.mem_cons_self
    · exact List.mem_cons_of_mem _ (ih h)

/-- The keys are in order and the values satisfy `P`. -/
structure Holds (P : α → Prop) (table : Table α) : Prop where
  ordered : Ordered table
  values : ∀ entry ∈ table, P entry.2

theorem holds_nil : Holds P ([] : Table α) := ⟨List.Pairwise.nil, by simp⟩

theorem Holds.insert {table : Table α} (h : Holds P table) (key : String) {value : α} (hv : P value) :
    Holds P (Table.insert key value table) := by
  refine ⟨ordered_insert h.ordered, fun entry hmem => ?_⟩
  rcases mem_insert hmem with rfl | hmem
  · exact hv
  · exact h.values entry hmem

theorem Holds.of_get? {table : Table α} (h : Holds P table) {key : String} {value : α}
    (hget : get? key table = some value) : P value :=
  h.values _ (mem_of_get? hget)

end Table

namespace Json

/-! ## What readers give -/

/-- What has been read, if anything, satisfies `P`. -/
def Gives {ε α : Type} (P : α → Prop) (result : Except ε (α × List Char)) : Prop :=
  match result with
  | .ok (x, _) => P x
  | .error _ => True

section

variable {ε α β γ : Type} {P : α → Prop} {Q : β → Prop}

theorem Gives.ok {x : α} (h : P x) (rest : List Char) : Gives (ε := ε) P (.ok (x, rest)) := h

theorem Gives.error (e : ε) : Gives P (.error e : Except ε (α × List Char)) := trivial

/-- A reader after another one. -/
theorem Gives.bind {first : Except ε (α × List Char)} {next : α × List Char → Except ε (β × List Char)}
    (h : Gives P first) (hnext : ∀ x rest, P x → Gives Q (next (x, rest))) : Gives Q (first >>= next) := by
  cases first with
  | error e => exact Gives.error e
  | ok r => exact hnext r.1 r.2 h

/-- A reader after one whose result does not matter. -/
theorem gives_bind {first : Except ε γ} {next : γ → Except ε (β × List Char)}
    (hnext : ∀ x, Gives Q (next x)) : Gives Q (first >>= next) := by
  cases first with
  | error e => exact Gives.error e
  | ok r => exact hnext r

theorem Gives.map {result : Except ε (α × List Char)} (h : Gives P result) {f : α → β}
    (hf : ∀ x, P x → Q (f x)) : Gives Q (result.map fun (x, rest) => (f x, rest)) := by
  cases result with
  | error e => exact Gives.error e
  | ok r => exact hf r.1 h

theorem gives_readWord {value : α} (h : P value) (word cs : List Char) :
    Gives P (readWord value word cs) := by
  fun_induction readWord value word cs with
  | case1 cs => exact Gives.ok h cs
  | case2 | case4 => exact Gives.error _
  | case3 _ _ _ ih => exact ih

end

/-! ## Numbers -/

theorem inRange_finishFloat (negative : Bool) (m : Nat) (scale : Int) (rest : List Char) :
    Gives Number.InRange (finishFloat negative m scale rest) := by
  unfold finishFloat
  split
  · exact Gives.ok (show Number.InRange (.float _) from trivial) rest
  · exact Gives.error _

theorem inRange_readExponentDigits (negative : Bool) (m : Nat) (scale : Int) (down : Bool) (exp : Nat)
    (cs : List Char) : Gives Number.InRange (readExponentDigits negative m scale down exp cs) := by
  fun_induction readExponentDigits negative m scale down exp cs with
  | case1 | case5 => exact inRange_finishFloat ..
  | case2 _ _ _ _ _ _ ih => exact ih
  | case3 => exact Gives.error _
  | case4 => exact Gives.ok (show Number.InRange (.float _) from trivial) _

theorem inRange_readExponent (negative : Bool) (m : Nat) (scale : Int) (cs : List Char) :
    Gives Number.InRange (readExponent negative m scale cs) := by
  unfold readExponent
  simp only
  split
  · exact Gives.error _
  · split
    · exact inRange_readExponentDigits ..
    · exact Gives.error _

theorem inRange_readScale (negative : Bool) (m : Nat) (scale : Int) (cs : List Char) :
    Gives Number.InRange (readScale negative m scale cs) := by
  unfold readScale
  split
  · exact inRange_finishFloat ..
  · split
    · exact inRange_readExponent ..
    · exact inRange_finishFloat ..

theorem inRange_readFraction (negative : Bool) (m : Nat) (scale : Int) (cs : List Char) :
    Gives Number.InRange (readFraction negative m scale cs) := by
  unfold readFraction
  simp only
  split
  · exact inRange_readScale ..
  · split
    · exact Gives.error _
    · exact inRange_readScale ..

/-- A significand that has been read is an unsigned integer of 64 bits. -/
theorem readSignificand_lt (m : Nat) (cs : List Char) (h : m < 0x1_0000_0000_0000_0000) :
    (readSignificand m cs).1 < 0x1_0000_0000_0000_0000 := by
  fun_induction readSignificand m cs with
  | case1 => exact h
  | case2 m c rest hc ih =>
    rw [Bool.and_eq_true, decide_eq_true_eq] at hc
    exact ih hc.2
  | case3 => exact h

theorem inRange_natural {m : Nat} (h : m < 0x1_0000_0000_0000_0000) : Number.InRange (.integer m) := by
  refine ⟨?_, ?_⟩
  · unfold Number.minInteger
    omega
  · unfold Number.maxInteger
    omega

theorem inRange_finishInteger (negative : Bool) {m : Nat} (h : m < 0x1_0000_0000_0000_0000) (cs : List Char) :
    Gives Number.InRange (finishInteger negative m cs) := by
  have hplain : Gives Number.InRange (if negative then
      if m = 0 || m > 0x8000_0000_0000_0000 then finishFloat true m 0 cs else .ok (.integer (-(m : Int)), cs)
      else .ok (.integer m, cs)) := by
    split
    · split
      · exact inRange_finishFloat ..
      · rename_i hm
        rw [Bool.or_eq_true, decide_eq_true_eq, decide_eq_true_eq, not_or] at hm
        have hrange : Number.InRange (.integer (-(m : Int))) := by
          refine ⟨?_, ?_⟩
          · unfold Number.minInteger
            omega
          · unfold Number.maxInteger
            omega
        exact Gives.ok hrange cs
    · exact Gives.ok (inRange_natural h) cs
  unfold finishInteger
  simp only
  split
  · exact hplain
  · split
    · exact inRange_readFraction ..
    · split
      · exact inRange_readExponent ..
      · exact hplain

theorem inRange_finishLong (negative : Bool) (m : Nat) (cs : List Char) :
    Gives Number.InRange (finishLong negative m cs) := by
  unfold finishLong
  simp only
  split
  · exact inRange_finishFloat ..
  · split
    · exact inRange_readFraction ..
    · exact inRange_readScale ..

theorem digitValue_lt {c : Char} (h : isDigit c = true) : digitValue c < 10 := by
  have h' : '0'.toNat ≤ c.toNat ∧ c.toNat ≤ '9'.toNat := by
    rw [isDigit, Bool.and_eq_true, decide_eq_true_eq, decide_eq_true_eq] at h
    exact h
  have hzero : '0'.toNat = 48 := rfl
  have hnine : '9'.toNat = 57 := rfl
  unfold digitValue
  omega

theorem inRange_readNumber (negative : Bool) (cs : List Char) :
    Gives Number.InRange (readNumber negative cs) := by
  unfold readNumber
  split
  · exact Gives.error _
  · split
    · split
      · exact Gives.error _
      · exact inRange_finishInteger negative (by decide) _
    · split
      · rename_i c rest _ hc
        have hlt : digitValue c < 0x1_0000_0000_0000_0000 := Nat.lt_trans (digitValue_lt hc) (by decide)
        simp only
        split
        · exact inRange_finishLong ..
        · exact inRange_finishInteger negative (readSignificand_lt _ rest hlt) _
      · exact Gives.error _

/-! ## Values -/

section

variable {α σ : Type} {P : α → Prop}

/-- The items that are read satisfy `P` if each item that is read does. -/
theorem gives_readItems {item : Reader α} (h : ∀ cs, Gives P (item cs)) (fuel : Nat) (first : Bool)
    (cs : List Char) : Gives (fun xs => ∀ x ∈ xs, P x) (readItems item fuel first cs) := by
  induction fuel generalizing first cs with
  | zero => exact Gives.error _
  | succ fuel ih =>
    have hmore : ∀ cs, Gives (fun xs => ∀ x ∈ xs, P x)
        (item cs >>= fun r => readItems item fuel false r.2 >>= fun rs =>
          (pure (r.1 :: rs.1, rs.2) : Except Fault _)) := by
      intro cs
      refine (h cs).bind fun x rest hx => (ih false rest).bind fun xs rest' hxs => ?_
      exact Gives.ok (List.forall_mem_cons.2 ⟨hx, hxs⟩) rest'
    unfold readItems
    split
    · exact Gives.error _
    · split
      · exact Gives.ok (by simp) _
      · split
        · exact hmore _
        · split
          · split
            · exact Gives.error _
            · split
              · exact Gives.error _
              · exact hmore _
          · exact Gives.error _

/-- What holds of a state at first and is kept by each entry holds when the entries have been read. -/
theorem gives_foldEntries {I : σ → Prop} {entry : σ → String → Reader σ}
    (h : ∀ state key cs, I state → Gives I (entry state key cs)) (fuel : Nat) (first : Bool) (state : σ)
    (cs : List Char) (hs : I state) : Gives I (foldEntries entry fuel first state cs) := by
  induction fuel generalizing first state cs with
  | zero => exact Gives.error _
  | succ fuel ih =>
    have hmore : ∀ cs, Gives I (readString cs >>= fun key => entry state key.1 key.2 >>= fun r =>
        foldEntries entry fuel false r.1 r.2) :=
      fun cs => gives_bind fun key => (h state _ _ hs).bind fun state' rest hs' => ih false state' rest hs'
    unfold foldEntries
    split
    · exact Gives.error _
    · split
      · exact Gives.ok hs _
      · split
        · split
          · exact hmore _
          · exact Gives.error _
        · split
          · split
            · exact Gives.error _
            · split
              · exact hmore _
              · split <;> exact Gives.error _
          · exact Gives.error _

theorem gives_readTable {value : Reader α} (h : ∀ cs, Gives P (value cs)) (cs : List Char) :
    Gives (Table.Holds P) (readTable value cs) := by
  refine (gives_foldEntries (fun table key cs ht => ?_) _ _ _ cs Table.holds_nil).bind
    fun table rest ht => Gives.ok ht _
  exact gives_bind fun cs => (h cs).bind fun v rest hv => Gives.ok (ht.insert key hv) rest

end

/-- What is read is sound and nested no deeper than the reader goes. -/
theorem gives_readValue (n : Nat) (cs : List Char) : Gives (IsGood n) (readValue n cs) := by
  have hnull : ∀ n, IsGood n null := fun n => ⟨by simp [IsSound], by simp [depth]⟩
  have hbool : ∀ n b, IsGood n (bool b) := fun n b => ⟨by simp [IsSound], by simp [depth]⟩
  have hnumber : ∀ n (x : Number), x.InRange → IsGood n (number x) :=
    fun n x hx => ⟨by simpa only [IsSound] using hx, by simp [depth]⟩
  have hstring : ∀ n rest, Gives (IsGood n) ((readString rest).map fun found => (string found.1, found.2)) := by
    intro n rest
    cases readString rest with
    | error e => exact Gives.error e
    | ok r => exact isGood_string n r.1
  induction n generalizing cs with
  | zero =>
    unfold readValue
    repeat' split
    any_goals exact Gives.error _
    · exact gives_readWord (hnull 0) ..
    · exact gives_readWord (hbool 0 _) ..
    · exact gives_readWord (hbool 0 _) ..
    · exact (inRange_readNumber true _).map fun x hx => hnumber 0 x hx
    · exact (inRange_readNumber false _).map fun x hx => hnumber 0 x hx
    · exact hstring 0 _
    all_goals exact absurd ‹0 = _› (Nat.zero_ne_add_one _)
  | succ n ih =>
    unfold readValue
    repeat' split
    any_goals exact Gives.error _
    · exact gives_readWord (hnull _) ..
    · exact gives_readWord (hbool _ _) ..
    · exact gives_readWord (hbool _ _) ..
    · exact (inRange_readNumber true _).map fun x hx => hnumber _ x hx
    · exact (inRange_readNumber false _).map fun x hx => hnumber _ x hx
    · exact hstring _ _
    · rename_i heq
      obtain rfl := Nat.succ.inj heq
      refine (gives_readItems ih ..).bind fun items rest h => ?_
      exact Gives.ok (isGood_array.2 h) rest
    · rename_i heq
      obtain rfl := Nat.succ.inj heq
      refine (gives_readTable ih _).bind fun fields rest h => ?_
      exact Gives.ok (isGood_object.2 ⟨h.ordered, h.values⟩) rest

/-- A text that is read as a whole gives what its reader gives. -/
theorem of_readAll {α : Type} {P : α → Prop} {reader : Reader α} (h : ∀ cs, Gives P (reader cs))
    {source : String} {x : α} (hr : readAll reader source = .ok x) : P x := by
  have hsource := h source.toList
  unfold readAll at hr
  split at hr
  · simp at hr
  · rename_i y rest hy
    rw [hy] at hsource
    split at hr
    · rw [← Except.ok.inj hr]
      exact hsource
    · simp at hr

/-- The value that a text denotes is sound and nested at most 127 deep. -/
theorem good_of_read {source : String} {value : Json} (h : read source = .ok value) :
    IsGood maxDepth value :=
  of_readAll (gives_readValue maxDepth) h

end Json

end Evomark
