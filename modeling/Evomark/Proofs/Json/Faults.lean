import Evomark.Json.Reader
/-!
# What is wrong with a text

The causes that `Json.read` gives for not reading a text are those of texts, not those of records
(`isOfText_read`), so their wording does not depend on the text.
-/

namespace Evomark.Json

/-- The cause lies in a text, not in what a record should be. -/
def Cause.isOfText : Cause → Bool
  | missingField _ | duplicateField _ | unknownVariant .. | invalidType .. | invalidLength .. => false
  | _ => true

/-- A result, or a fault of the text. -/
def BlamesText {α : Type} : Except Fault α → Prop
  | .ok _ => True
  | .error fault => fault.cause.isOfText = true

section

variable {α β : Type}

theorem BlamesText.bind {x : Except Fault α} {f : α → Except Fault β} (h : BlamesText x)
    (hf : ∀ a, BlamesText (f a)) : BlamesText (x >>= f) := by
  cases x with
  | error fault => exact h
  | ok a => exact hf a

theorem BlamesText.map {x : Except Fault α} (h : BlamesText x) (f : α → β) : BlamesText (x.map f) := by
  cases x with
  | error fault => exact h
  | ok a => trivial

theorem blamesText_readWord (value : α) (word cs : List Char) : BlamesText (readWord value word cs) := by
  fun_induction readWord value word cs with
  | case1 => trivial
  | case2 => rfl
  | case3 _ _ _ ih => exact ih
  | case4 => rfl

end

/-! ## Strings -/

theorem BlamesText.prepend {x : Except Fault (List Char × List Char)} (h : BlamesText x) (c : Char) :
    BlamesText (Json.prepend c x) := by
  cases x with
  | error fault => exact h
  | ok a => trivial

theorem isOfText_hexFault (cs : List Char) : (hexFault cs).cause.isOfText = true := by
  unfold hexFault
  split <;> rfl

theorem isOfText_surrogateFault (cs : List Char) : (surrogateFault cs).cause.isOfText = true := by
  unfold surrogateFault
  repeat' split
  any_goals rfl
  exact isOfText_hexFault _

theorem blamesText_readQuoted (cs : List Char) : BlamesText (readQuoted cs) := by
  fun_induction readQuoted cs
  all_goals first
    | trivial
    | rfl
    | exact isOfText_hexFault _
    | exact isOfText_surrogateFault _
    | exact BlamesText.prepend ‹_› _

theorem blamesText_readString (cs : List Char) : BlamesText (readString cs) :=
  (blamesText_readQuoted cs).bind fun _ => trivial

/-! ## Numbers -/

theorem blamesText_finishFloat (negative : Bool) (m : Nat) (scale : Int) (rest : List Char) :
    BlamesText (finishFloat negative m scale rest) := by
  unfold finishFloat
  split
  · trivial
  · rfl

theorem blamesText_readExponentDigits (negative : Bool) (m : Nat) (scale : Int) (down : Bool) (exp : Nat)
    (cs : List Char) : BlamesText (readExponentDigits negative m scale down exp cs) := by
  fun_induction readExponentDigits negative m scale down exp cs
  all_goals first
    | trivial
    | rfl
    | exact blamesText_finishFloat ..

theorem blamesText_readExponent (negative : Bool) (m : Nat) (scale : Int) (cs : List Char) :
    BlamesText (readExponent negative m scale cs) := by
  unfold readExponent
  simp only
  split
  · rfl
  · split
    · exact blamesText_readExponentDigits ..
    · rfl

theorem blamesText_readScale (negative : Bool) (m : Nat) (scale : Int) (cs : List Char) :
    BlamesText (readScale negative m scale cs) := by
  unfold readScale
  split
  · exact blamesText_finishFloat ..
  · split
    · exact blamesText_readExponent ..
    · exact blamesText_finishFloat ..

theorem blamesText_readFraction (negative : Bool) (m : Nat) (scale : Int) (cs : List Char) :
    BlamesText (readFraction negative m scale cs) := by
  unfold readFraction
  simp only
  split
  · exact blamesText_readScale ..
  · split
    · split <;> rfl
    · exact blamesText_readScale ..

theorem blamesText_finishInteger (negative : Bool) (m : Nat) (cs : List Char) :
    BlamesText (finishInteger negative m cs) := by
  unfold finishInteger
  repeat' split
  all_goals first
    | trivial
    | exact blamesText_finishFloat ..
    | exact blamesText_readFraction ..
    | exact blamesText_readExponent ..

theorem blamesText_finishLong (negative : Bool) (m : Nat) (cs : List Char) :
    BlamesText (finishLong negative m cs) := by
  unfold finishLong
  simp only
  split
  · exact blamesText_finishFloat ..
  · split
    · exact blamesText_readFraction ..
    · exact blamesText_readScale ..

theorem blamesText_readNumber (negative : Bool) (cs : List Char) :
    BlamesText (readNumber negative cs) := by
  unfold readNumber
  repeat' split
  all_goals first
    | rfl
    | exact blamesText_finishInteger ..
    | exact blamesText_finishLong ..

/-! ## Values -/

section

variable {α σ : Type}

theorem blamesText_readItems {item : Reader α} (h : ∀ cs, BlamesText (item cs)) (fuel : Nat) (first : Bool)
    (cs : List Char) : BlamesText (readItems item fuel first cs) := by
  induction fuel generalizing first cs with
  | zero => rfl
  | succ fuel ih =>
    have hmore : ∀ cs, BlamesText (item cs >>= fun r => readItems item fuel false r.2 >>= fun rs =>
        (pure (r.1 :: rs.1, rs.2) : Except Fault _)) :=
      fun cs => (h cs).bind fun _ => (ih _ _).bind fun _ => trivial
    unfold readItems
    repeat' split
    any_goals first
      | trivial
      | rfl
    all_goals exact hmore _

theorem blamesText_foldEntries {entry : σ → String → Reader σ}
    (h : ∀ state key cs, BlamesText (entry state key cs)) (fuel : Nat) (first : Bool) (state : σ)
    (cs : List Char) : BlamesText (foldEntries entry fuel first state cs) := by
  induction fuel generalizing first state cs with
  | zero => rfl
  | succ fuel ih =>
    have hmore : ∀ cs, BlamesText (readString cs >>= fun key => entry state key.1 key.2 >>= fun r =>
        foldEntries entry fuel false r.1 r.2) :=
      fun cs => (blamesText_readString cs).bind fun _ => (h _ _ _).bind fun _ => ih _ _ _
    unfold foldEntries
    repeat' split
    any_goals first
      | trivial
      | rfl
    all_goals exact hmore _

theorem blamesText_readColon (cs : List Char) : BlamesText (readColon cs) := by
  unfold readColon
  repeat' split
  any_goals rfl
  trivial

theorem blamesText_readTable {value : Reader α} (h : ∀ cs, BlamesText (value cs)) (cs : List Char) :
    BlamesText (readTable value cs) := by
  refine (blamesText_foldEntries (fun table key cs => ?_) _ _ _ cs).bind fun _ => trivial
  exact (blamesText_readColon cs).bind fun cs => (h cs).bind fun _ => trivial

end

theorem blamesText_readValue (depth : Nat) (cs : List Char) : BlamesText (readValue depth cs) := by
  induction depth generalizing cs with
  | zero =>
    unfold readValue
    repeat' split
    any_goals first
      | rfl
      | exact blamesText_readWord ..
      | exact (blamesText_readNumber ..).map _
      | exact (blamesText_readString ..).map _
    all_goals exact absurd ‹0 = _› (Nat.zero_ne_add_one _)
  | succ depth ih =>
    unfold readValue
    repeat' split
    any_goals first
      | rfl
      | exact blamesText_readWord ..
      | exact (blamesText_readNumber ..).map _
      | exact (blamesText_readString ..).map _
    all_goals
      rename_i heq
      obtain rfl := Nat.succ.inj heq
    · exact (blamesText_readItems ih ..).bind fun _ => trivial
    · exact (blamesText_readTable ih _).bind fun _ => trivial

/-- A text that cannot be read has a cause of texts. -/
theorem isOfText_read {source : String} {e : Error} (h : read source = .error e) :
    e.cause.isOfText = true := by
  unfold read readAll at h
  split at h
  · rename_i fault hf
    have hblames := blamesText_readValue maxDepth source.toList
    rw [hf] at hblames
    obtain rfl := Except.error.inj h
    exact hblames
  · split at h
    · simp at h
    · obtain rfl := Except.error.inj h
      rfl

end Evomark.Json
