import Evomark.Markup.Clause
import Evomark.Json.Printer
import Evomark.Proofs.Markup.Shape
/-!
# Written values between parentheses

The text of a value neither starts nor ends with white space (`solid_write`), and in it every
parenthesis stands between quotes, so that the parenthesis after it closes the one before it
(`splitParens_write`).
-/

namespace Evomark

namespace Clause

theorem extend_nil (found : Option (List Char × List Char)) : extend [] found = found := by
  cases found <;> rfl

theorem extend_extend (front more : List Char) (found : Option (List Char × List Char)) :
    extend front (extend more found) = extend (front ++ more) found := by
  cases found <;> simp [extend]

/-- A text that is passed over on the way to the closing parenthesis, outside of quotes or, if
`quoted`, between them. -/
def Passed (quoted : Bool) (text : List Char) : Prop :=
  ∀ depth rest, splitParens depth quoted (text ++ rest) = extend text (splitParens depth quoted rest)

namespace Passed

variable {quoted : Bool} {text more : List Char}

theorem nil : Passed quoted [] := fun _ _ => (extend_nil _).symm

theorem append (h : Passed quoted text) (h' : Passed quoted more) : Passed quoted (text ++ more) := by
  intro depth rest
  rw [List.append_assoc, h, h', extend_extend]

theorem singleton {c : Char} (h : c ≠ '"' ∧ c ≠ '(' ∧ c ≠ ')') : Passed false [c] := by
  intro depth rest
  rw [List.singleton_append, splitParens.eq_def]
  simp [h.1, h.2.1, h.2.2]

theorem of_forall (h : ∀ c ∈ text, c ≠ '"' ∧ c ≠ '(' ∧ c ≠ ')') : Passed false text := by
  induction text with
  | nil => exact nil
  | cons c rest ih =>
    rw [List.forall_mem_cons] at h
    exact (singleton h.1).append (ih h.2)

theorem quoted_singleton {c : Char} (h : c ≠ '\\' ∧ c ≠ '"') : Passed true [c] := by
  intro depth rest
  have hc : (c != '"') = true := by simpa using h.2
  rw [List.singleton_append, splitParens.eq_def]
  simp [h.1, hc]

theorem quoted_pair (c : Char) : Passed true ['\\', c] := by
  intro depth rest
  show splitParens depth true ('\\' :: c :: rest) = _
  rw [splitParens.eq_def]
  simp

/-- A text between quotes. -/
theorem quote (h : Passed true text) : Passed false ('"' :: text ++ ['"']) := by
  intro depth rest
  have hopen : ∀ more, splitParens depth false ('"' :: more) = extend ['"'] (splitParens depth true more) := by
    intro more
    rw [splitParens.eq_def]
    simp
  have hclose : splitParens depth true ('"' :: rest) = extend ['"'] (splitParens depth false rest) := by
    rw [splitParens.eq_def]
    simp
  rw [List.append_assoc, List.cons_append, hopen, h, List.singleton_append, hclose, extend_extend,
    extend_extend]
  rfl

end Passed

end Clause

open Clause

/-! ## Numbers -/

/-- A character of a written number. -/
def IsNumberChar (c : Char) : Prop := c.isDigit = true ∨ c = '.' ∨ c = '-' ∨ c = '+' ∨ c = 'e'

theorem IsNumberChar.plain {c : Char} (h : IsNumberChar c) : c ≠ '"' ∧ c ≠ '(' ∧ c ≠ ')' := by
  refine ⟨?_, ?_, ?_⟩ <;>
  · rintro rfl
    revert h
    unfold IsNumberChar
    decide

theorem IsNumberChar.not_white {c : Char} (h : IsNumberChar c) : Text.isWhite c = false := by
  obtain h | h : Window.isNameChar c = true ∨ c = '.' ∨ c = '-' ∨ c = '+' ∨ c = 'e' :=
    h.imp_left Markup.isNameChar_of_isDigit
  · exact Markup.not_white_of_isNameChar h
  · rcases h with rfl | rfl | rfl | rfl <;> rfl

theorem isNumberChar_of_mem_toDigits {c : Char} {n : Nat} (h : c ∈ Nat.toDigits 10 n) : IsNumberChar c :=
  .inl (Nat.isDigit_of_mem_toDigits (by decide) (by decide) h)

theorem isNumberChar_of_mem_sign {c : Char} {negative : Bool} (h : c ∈ FloatStyle.sign negative) :
    IsNumberChar c := by
  unfold FloatStyle.sign at h
  split at h
  · rw [List.mem_singleton] at h
    exact .inr (.inr (.inl h))
  · simp at h

theorem isNumberChar_of_mem_positional {c : Char} {style : FloatStyle} {digits : List Char}
    {scale : Int} (hd : ∀ d ∈ digits, IsNumberChar d) (h : c ∈ style.positional digits scale) :
    IsNumberChar c := by
  have hzero : IsNumberChar '0' := .inl rfl
  have hpoint : IsNumberChar '.' := .inr (.inl rfl)
  unfold FloatStyle.positional at h
  simp only at h
  split at h
  · rw [List.mem_append, List.mem_append] at h
    rcases h with (h | h) | h
    · exact hd c h
    · rw [List.eq_of_mem_replicate h]
      exact hzero
    · split at h
      · simp only [List.mem_cons, List.not_mem_nil, or_false] at h
        rcases h with rfl | rfl
        · exact hpoint
        · exact hzero
      · simp at h
  · split at h
    · rw [List.mem_append, List.mem_cons] at h
      rcases h with h | rfl | h
      · exact hd c (List.mem_of_mem_take h)
      · exact hpoint
      · exact hd c (List.mem_of_mem_drop h)
    · simp only [List.cons_append, List.mem_cons, List.mem_append] at h
      rcases h with rfl | rfl | h | h
      · exact hzero
      · exact hpoint
      · rw [List.eq_of_mem_replicate h]
        exact hzero
      · exact hd c h

theorem isNumberChar_of_mem_scientific {c : Char} {digits : List Char} {power : Int}
    (hd : ∀ d ∈ digits, IsNumberChar d) (h : c ∈ FloatStyle.scientific digits power) :
    IsNumberChar c := by
  unfold FloatStyle.scientific at h
  simp only [List.mem_append, List.mem_cons] at h
  rcases h with h | rfl | rfl | h
  · split at h
    · simp only [List.mem_cons] at h
      rcases h with rfl | rfl | h
      · exact hd _ (by simp)
      · exact .inr (.inl rfl)
      · exact hd c (List.mem_cons_of_mem _ (by simpa using h))
    · exact hd c h
  · exact .inr (.inr (.inr (.inr rfl)))
  · split
    · exact .inr (.inr (.inl rfl))
    · exact .inr (.inr (.inr (.inl rfl)))
  · exact isNumberChar_of_mem_toDigits h

theorem isNumberChar_of_mem_write {n : Number} {c : Char} (h : c ∈ n.write) : IsNumberChar c := by
  cases n with
  | integer n =>
    rcases List.mem_append.1 h with h | h
    · exact isNumberChar_of_mem_sign h
    · exact isNumberChar_of_mem_toDigits h
  | float x =>
    have hd : ∀ d ∈ x.shortest.text, IsNumberChar d := fun _ hd => isNumberChar_of_mem_toDigits hd
    rcases List.mem_append.1 h with h | h
    · exact isNumberChar_of_mem_sign h
    · split at h
      · exact isNumberChar_of_mem_positional hd h
      · exact isNumberChar_of_mem_scientific hd h

theorem write_number_ne_nil (n : Number) : n.write ≠ [] := by
  cases n with
  | integer n => simp [Number.write, Number.integerText, Nat.toDigits_ne_nil]
  | float x =>
    have hd : x.shortest.text ≠ [] := Nat.toDigits_ne_nil
    intro h
    have h := (List.append_eq_nil_iff.1 h).2
    split at h
    · unfold FloatStyle.positional at h
      simp only at h
      split at h
      · simp [hd] at h
      · split at h <;> simp at h
    · simp [FloatStyle.scientific] at h

/-! ## Values -/

namespace Json

theorem digitChar_ne : ∀ n < 16, Nat.digitChar n ≠ '\\' ∧ Nat.digitChar n ≠ '"' := by
  decide

theorem passed_escape (c : Char) : Passed true (escape c) := by
  by_cases hc : c = '"' ∨ c = '\\'
  · rcases hc with rfl | rfl <;> exact .quoted_pair _
  rw [not_or] at hc
  rw [escape, if_neg hc.1, if_neg hc.2]
  repeat' split
  all_goals try exact .quoted_pair _
  · have hdigit (n : Nat) (hn : n < 16) : Passed true [Nat.digitChar n] :=
      .quoted_singleton (digitChar_ne n hn)
    have hzeros : Passed true ['\\', 'u', '0', '0'] :=
      ((Passed.quoted_pair 'u').append (.quoted_singleton (by decide))).append
        (.quoted_singleton (by decide))
    exact hzeros.append ((hdigit _ (by omega)).append (hdigit _ (by omega)))
  · exact .quoted_singleton ⟨hc.2, hc.1⟩

theorem passed_quote (s : String) : Passed false (quote s) := by
  refine .quote ?_
  induction s.toList with
  | nil => exact .nil
  | cons c rest ih =>
    rw [List.flatMap_cons]
    exact (passed_escape c).append ih

theorem solid_quote (s : String) : Text.Solid (quote s) :=
  ⟨⟨'"', _, rfl, rfl⟩, ⟨'"' :: s.toList.flatMap escape, '"', rfl, rfl⟩⟩

theorem passed_sign {c : Char} (h : c ≠ '"' ∧ c ≠ '(' ∧ c ≠ ')') {text : List Char}
    (ht : Passed false text) : Passed false (c :: text) := (Passed.singleton h).append ht

theorem solid_of_plain {text : List Char} (hne : text ≠ []) (h : ∀ c ∈ text, Text.isWhite c = false) :
    Text.Solid text := by
  obtain ⟨c, rest, rfl⟩ := List.exists_cons_of_ne_nil hne
  refine ⟨⟨c, rest, rfl, h c (.head _)⟩, ⟨_, _, (List.dropLast_append_getLast hne).symm, h _ ?_⟩⟩
  exact List.getLast_mem hne

mutual

theorem passed_write : ∀ value : Json, Passed false value.write
  | null => .of_forall (Text.forall_mem_of_all rfl)
  | bool b => by cases b <;> exact .of_forall (Text.forall_mem_of_all rfl)
  | number n => .of_forall fun _ hc => (isNumberChar_of_mem_write hc).plain
  | string s => passed_quote s
  | array items => by
    rw [write]
    exact (passed_sign (by decide) (passed_writeItems items)).append (.singleton (by decide))
  | object fields => by
    rw [write]
    exact (passed_sign (by decide) (passed_writeFields fields)).append (.singleton (by decide))

theorem passed_writeItems : ∀ items : List Json, Passed false (writeItems items)
  | [] => .nil
  | [item] => by
    rw [writeItems]
    exact passed_write item
  | item :: next :: more => by
    rw [writeItems]
    exact (passed_write item).append (passed_sign (by decide) (passed_writeItems (next :: more)))
    simp

theorem passed_writeFields : ∀ fields : List (String × Json), Passed false (writeFields fields)
  | [] => .nil
  | [(key, value)] => by
    rw [writeFields]
    exact (passed_quote key).append (passed_sign (by decide) (passed_write value))
  | (key, value) :: next :: more => by
    rw [writeFields]
    · exact ((passed_quote key).append (passed_sign (by decide) (passed_write value))).append
        (passed_sign (by decide) (passed_writeFields (next :: more)))
    · simp

end

theorem solid_write (value : Json) : Text.Solid value.write := by
  cases value with
  | null => exact ⟨⟨'n', _, rfl, rfl⟩, ⟨['n', 'u', 'l'], 'l', rfl, rfl⟩⟩
  | bool b =>
    cases b
    · exact ⟨⟨'f', _, rfl, rfl⟩, ⟨['f', 'a', 'l', 's'], 'e', rfl, rfl⟩⟩
    · exact ⟨⟨'t', _, rfl, rfl⟩, ⟨['t', 'r', 'u'], 'e', rfl, rfl⟩⟩
  | number n => exact solid_of_plain (write_number_ne_nil n) fun c hc => (isNumberChar_of_mem_write hc).not_white
  | string s => exact solid_quote s
  | array items => exact ⟨⟨'[', _, by rw [write]; rfl, rfl⟩, ⟨_, ']', by rw [write], rfl⟩⟩
  | object fields => exact ⟨⟨'\x7b', _, by rw [write]; rfl, rfl⟩, ⟨_, '\x7d', by rw [write], rfl⟩⟩

/-- The parenthesis behind a value is the one that closes the parameter. -/
theorem splitParens_write (value : Json) (rest : List Char) :
    splitParens 0 false (value.write ++ ')' :: rest) = some (value.write, rest) := by
  rw [passed_write value, splitParens.eq_def]
  simp [extend]

end Json

end Evomark
