import Evomark.Json.Printer
import Evomark.Proofs.Json.Mapped
/-!
# Written values are read back

A sound value without fractions (`Json.isWhole`) that is nested no deeper than the reader goes is
read back from what `Json.compact` and `Json.pretty` write of it (`read_compact`, `read_pretty`).

The two writers differ in white space only. `Lays` says how a writer lays out arrays and objects, and
what it writes for a string. `Lays.rereads_mapStrings` is about every writer that does so: what it
writes of a value is read back as that value with the strings that have been written, wherever no
further digit follows (`Rereads`).
-/

namespace Evomark

namespace Json

mutual

/-- All numbers in the value are whole. -/
def isWhole : Json → Bool
  | number (.float _) => false
  | array items => areWhole items
  | object fields => fieldsWhole fields
  | _ => true

/-- All numbers in the values are whole. -/
def areWhole : List Json → Bool
  | [] => true
  | item :: items => isWhole item && areWhole items

/-- All numbers in the fields are whole. -/
def fieldsWhole : List (String × Json) → Bool
  | [] => true
  | (_, value) :: fields => isWhole value && fieldsWhole fields

end

theorem areWhole_iff {items : List Json} : areWhole items = true ↔ ∀ item ∈ items, item.isWhole = true := by
  induction items with
  | nil => simp [areWhole]
  | cons item rest ih => rw [areWhole, Bool.and_eq_true, ih, List.forall_mem_cons]

theorem fieldsWhole_iff {fields : List (String × Json)} :
    fieldsWhole fields = true ↔ ∀ entry ∈ fields, entry.2.isWhole = true := by
  induction fields with
  | nil => simp [fieldsWhole]
  | cons entry rest ih => rw [fieldsWhole, Bool.and_eq_true, ih, List.forall_mem_cons]

/-! ## White space and what may follow a value -/

/-- Nothing but white space. -/
def IsBlank (cs : List Char) : Prop := ∀ c ∈ cs, isSpace c = true

/-- A number ends before this text. -/
def Stops : List Char → Prop
  | [] => True
  | c :: _ => isDigit c = false ∧ c ≠ '.' ∧ c ≠ 'e' ∧ c ≠ 'E'

theorem isBlank_nil : IsBlank [] := fun _ h => nomatch h

theorem skipSpace_blank {blank : List Char} (h : IsBlank blank) (cs : List Char) :
    skipSpace (blank ++ cs) = skipSpace cs := by
  induction blank with
  | nil => rfl
  | cons c rest ih =>
    obtain ⟨hc, hrest⟩ := List.forall_mem_cons.1 h
    rw [← ih hrest]
    exact List.dropWhile_cons_of_pos hc

theorem skipSpace_cons {c : Char} (h : isSpace c = false) (rest : List Char) :
    skipSpace (c :: rest) = c :: rest :=
  List.dropWhile_cons_of_neg (by simp [h])

theorem Stops.blank {blank cs : List Char} (h : IsBlank blank) (hs : Stops cs) : Stops (blank ++ cs) := by
  cases blank with
  | nil => exact hs
  | cons c rest =>
    have hc := h c List.mem_cons_self
    simp only [isSpace, Bool.or_eq_true, beq_iff_eq] at hc
    show isDigit c = false ∧ c ≠ '.' ∧ c ≠ 'e' ∧ c ≠ 'E'
    rcases hc with ((rfl | rfl) | rfl) | rfl <;> decide

theorem Stops.startsWithDigit {cs : List Char} (h : Stops cs) : startsWithDigit cs = false := by
  cases cs with
  | nil => rfl
  | cons c rest => exact h.1

/-- `reader` reads `x` from `text` and leaves what stands behind it. -/
structure Rereads {α : Type} (reader : Reader α) (text : List Char) (x : α) : Prop where
  head : ∃ c rest, text = c :: rest ∧ isSpace c = false ∧ c ≠ ']'
  read : ∀ blank rest, IsBlank blank → Stops rest → reader (blank ++ (text ++ rest)) = .ok (x, rest)

theorem Rereads.readAll {α : Type} {reader : Reader α} {text : List Char} {x : α}
    (h : Rereads reader text x) : readAll reader (String.ofList text) = .ok x := by
  have hr : reader text = .ok (x, []) := by simpa using h.read [] [] isBlank_nil trivial
  unfold Json.readAll
  rw [String.toList_ofList, hr]
  rfl

/-! ## Strings -/

theorem hexUnit?_hexByte : ∀ n < 32,
    hexUnit? '0' '0' (Nat.digitChar (n / 16)) (Nat.digitChar (n % 16)) = some n := by
  decide

/-- A character of a string is read back. -/
theorem readQuoted_escape (c : Char) (cs : List Char) :
    readQuoted (escape c ++ cs) = prepend c (readQuoted cs) := by
  unfold escape
  split
  · rename_i h
    subst h
    rw [List.cons_append, readQuoted.eq_def]
    simp [shortEscape?]
  split
  · rename_i h
    subst h
    rw [List.cons_append, readQuoted.eq_def]
    simp [shortEscape?]
  have hshort : ∀ (n : Nat) (e : Char), c.toNat = n → e ≠ 'u' → shortEscape? e = some (Char.ofNat n) →
      readQuoted (['\\', e] ++ cs) = prepend c (readQuoted cs) := by
    intro n e hn hu he
    have hc : Char.ofNat n = c := by rw [← hn, Char.ofNat_toNat]
    rw [List.cons_append, readQuoted.eq_def]
    simp [hu, he, hc]
  rename_i hquote hslash
  split
  · exact hshort 8 'b' ‹_› (by decide) rfl
  split
  · exact hshort 9 't' ‹_› (by decide) rfl
  split
  · exact hshort 10 'n' ‹_› (by decide) rfl
  split
  · exact hshort 12 'f' ‹_› (by decide) rfl
  split
  · exact hshort 13 'r' ‹_› (by decide) rfl
  split
  · rename_i h
    have htrailing : isTrailing c.toNat = false := by
      simp only [isTrailing, Bool.and_eq_false_iff, decide_eq_false_iff_not]
      omega
    have hleading : isLeading c.toNat = false := by
      simp only [isLeading, Bool.and_eq_false_iff, decide_eq_false_iff_not]
      omega
    show readQuoted ('\\' :: 'u' :: '0' :: '0' :: Nat.digitChar (c.toNat / 16) ::
      Nat.digitChar (c.toNat % 16) :: cs) = _
    rw [readQuoted.eq_def]
    simp [hexUnit?_hexByte c.toNat h, htrailing, hleading]
  · rename_i h
    rw [List.singleton_append, readQuoted.eq_def]
    simp [hquote, hslash, h]

theorem readQuoted_escapes (chars rest : List Char) :
    readQuoted (chars.flatMap escape ++ '"' :: rest) = .ok (chars, rest) := by
  induction chars with
  | nil =>
    rw [List.flatMap_nil, List.nil_append, readQuoted.eq_def]
    simp
  | cons c cs ih =>
    rw [List.flatMap_cons, List.append_assoc, readQuoted_escape, ih]
    rfl

/-- A quoted text is read back behind its opening quote. -/
theorem readString_quote (s : String) (rest : List Char) :
    readString ((s.toList.flatMap escape ++ ['"']) ++ rest) = .ok (s, rest) := by
  have hquoted : readQuoted (s.toList.flatMap escape ++ ['"'] ++ rest) = .ok (s.toList, rest) := by
    rw [List.append_assoc]
    exact readQuoted_escapes s.toList rest
  unfold readString
  rw [hquoted]
  show Except.ok (String.ofList s.toList, rest) = _
  rw [String.ofList_toList]

/-! ## Numbers -/

theorem le_ofDigitChars (digits : List Char) (m : Nat) : m ≤ Nat.ofDigitChars 10 digits m := by
  induction digits generalizing m with
  | nil => exact Nat.le_refl m
  | cons c rest ih =>
    rw [Nat.ofDigitChars_cons]
    have := ih (10 * m + (c.toNat - '0'.toNat))
    omega

/-- The digits of a number that stays in range are read up to what follows. -/
theorem readSignificand_digits {digits : List Char} (hd : ∀ c ∈ digits, isDigit c = true) {m : Nat}
    (hm : Nat.ofDigitChars 10 digits m < 0x1_0000_0000_0000_0000) {rest : List Char} (hrest : Stops rest) :
    readSignificand m (digits ++ rest) = (Nat.ofDigitChars 10 digits m, rest) := by
  induction digits generalizing m with
  | nil =>
    cases rest with
    | nil => rfl
    | cons c rest =>
      rw [List.nil_append, readSignificand, hrest.1]
      rfl
  | cons c digits ih =>
    obtain ⟨hc, hdigits⟩ := List.forall_mem_cons.1 hd
    have hstep : Nat.ofDigitChars 10 (c :: digits) m =
        Nat.ofDigitChars 10 digits (10 * m + digitValue c) := Nat.ofDigitChars_cons
    rw [hstep] at hm ⊢
    have hlt : 10 * m + digitValue c < 0x1_0000_0000_0000_0000 := Nat.lt_of_le_of_lt (le_ofDigitChars digits _) hm
    rw [List.cons_append, readSignificand, hc, decide_eq_true hlt, Bool.and_self, if_pos rfl]
    exact ih hdigits hm

theorem isDigit_of_mem_toDigits {c : Char} {n : Nat} (h : c ∈ Nat.toDigits 10 n) : isDigit c = true :=
  Nat.isDigit_of_mem_toDigits (by decide) (by decide) h

theorem digitChar_ne_zero : ∀ n < 10, 0 < n → Nat.digitChar n ≠ '0' := by
  decide

/-- Only zero is written with a zero in front. -/
theorem toDigits_head {n : Nat} (h : 0 < n) :
    ∃ c rest, Nat.toDigits 10 n = c :: rest ∧ c ≠ '0' := by
  induction n using Nat.strongRecOn with
  | ind n ih =>
    rw [Nat.toDigits_eq_if (by decide)]
    split
    · exact ⟨_, [], rfl, digitChar_ne_zero n ‹_› h⟩
    · obtain ⟨c, rest, heq, hc⟩ := ih (n / 10) (by omega) (by omega)
      exact ⟨c, rest ++ [_], by rw [heq, List.cons_append], hc⟩

/-- The digits of a number in range are read up to what follows. -/
theorem readNumber_toDigits (negative : Bool) {n : Nat} (hn : n < 0x1_0000_0000_0000_0000) {rest : List Char}
    (hrest : Stops rest) :
    readNumber negative (Nat.toDigits 10 n ++ rest) = finishInteger negative n rest := by
  rcases Nat.eq_zero_or_pos n with rfl | hpos
  · show readNumber negative ('0' :: rest) = _
    rw [readNumber, if_pos rfl, hrest.startsWithDigit]
    rfl
  · obtain ⟨c, digits, heq, hc⟩ := toDigits_head hpos
    have hall : ∀ d ∈ c :: digits, isDigit d = true := fun d hd => isDigit_of_mem_toDigits (heq ▸ hd)
    obtain ⟨hdigit, hdigits⟩ := List.forall_mem_cons.1 hall
    have hvalue : Nat.ofDigitChars 10 digits (digitValue c) = n := by
      have h : Nat.ofDigitChars 10 (c :: digits) 0 = n := heq ▸ Nat.ofDigitChars_ten_toDigits
      rw [Nat.ofDigitChars_cons, Nat.mul_zero, Nat.zero_add] at h
      exact h
    have hread : readSignificand (digitValue c) (digits ++ rest) = (n, rest) := by
      rw [readSignificand_digits hdigits (by rw [hvalue]; exact hn) hrest, hvalue]
    rw [heq, List.cons_append, readNumber, if_neg hc, if_pos hdigit, hread]
    simp only [hrest.startsWithDigit]
    rfl

/-- A whole number ends where no fraction or exponent follows. -/
theorem finishInteger_stops {negative : Bool} {m : Nat} {rest : List Char} (h : Stops rest)
    (hm : negative = true → 0 < m ∧ m ≤ 0x8000_0000_0000_0000) :
    finishInteger negative m rest =
      .ok (.integer (if negative then -(m : Int) else m), rest) := by
  have hplain : (if negative then
      if m = 0 || m > 0x8000_0000_0000_0000 then finishFloat true m 0 rest else .ok (.integer (-(m : Int)), rest)
      else .ok (.integer m, rest) : Except Fault (Number × List Char)) =
      .ok (.integer (if negative then -(m : Int) else m), rest) := by
    cases negative with
    | false => rfl
    | true =>
      obtain ⟨hpos, hle⟩ := hm rfl
      have hin : (m = 0 || m > 0x8000_0000_0000_0000) = false := by
        rw [Bool.or_eq_false_iff, decide_eq_false_iff_not, decide_eq_false_iff_not]
        omega
      rw [if_pos rfl, if_neg (by rw [hin]; exact Bool.false_ne_true), if_pos rfl]
  unfold finishInteger
  cases rest with
  | nil => exact hplain
  | cons c rest =>
    obtain ⟨-, hpoint, he, hE⟩ := h
    simp only [hpoint, he, hE, decide_false, Bool.or_self, Bool.false_eq_true, if_false]
    exact hplain

/-! ## Values -/

theorem readValue_blank {blank : List Char} (h : IsBlank blank) (depth : Nat) (cs : List Char) :
    readValue depth (blank ++ cs) = readValue depth cs := by
  rw [readValue.eq_def, readValue.eq_def depth cs]
  simp only [skipSpace_blank h]

theorem ne_of_isDigit {c d : Char} (h : isDigit c = true) (hd : isDigit d = false) : c ≠ d := by
  rintro rfl
  rw [h] at hd
  exact Bool.noConfusion hd

theorem not_space_of_isDigit {c : Char} (h : isDigit c = true) : isSpace c = false := by
  have h1 : c ≠ ' ' := ne_of_isDigit h (by decide)
  have h2 : c ≠ '\n' := ne_of_isDigit h (by decide)
  have h3 : c ≠ '\t' := ne_of_isDigit h (by decide)
  have h4 : c ≠ '\r' := ne_of_isDigit h (by decide)
  simp [isSpace, h1, h2, h3, h4]

/-- A whole number in range is read back. -/
theorem rereads_integer (depth : Nat) {n : Int} (h : Number.InRange (.integer n)) :
    Rereads (readValue depth) (Number.integerText n) (number (.integer n)) := by
  obtain ⟨hmin, hmax⟩ := h
  have hlow : -0x8000_0000_0000_0000 ≤ n := hmin
  have hhigh : n ≤ 0xFFFF_FFFF_FFFF_FFFF := hmax
  obtain ⟨c, digits, heq⟩ := List.exists_cons_of_ne_nil (Nat.toDigits_ne_nil (n := n.natAbs) (b := 10))
  have hc : isDigit c = true := isDigit_of_mem_toDigits (heq ▸ List.mem_cons_self)
  rcases Int.lt_or_le n 0 with hneg | hpos
  · have htext : Number.integerText n = '-' :: Nat.toDigits 10 n.natAbs := by
      simp [Number.integerText, FloatStyle.sign, hneg]
    refine ⟨⟨'-', _, htext, by decide, by decide⟩, fun blank rest hb hs => ?_⟩
    have hnumber : readNumber true (Nat.toDigits 10 n.natAbs ++ rest) = .ok (.integer n, rest) := by
      rw [readNumber_toDigits true (by omega) hs, finishInteger_stops hs (by omega)]
      have : -((n.natAbs : Nat) : Int) = n := by omega
      rw [if_pos rfl, this]
    have hspace : skipSpace ('-' :: (Nat.toDigits 10 n.natAbs ++ rest)) = _ := skipSpace_cons (by decide) _
    rw [readValue_blank hb, htext, List.cons_append, readValue.eq_def]
    simp [hspace, hnumber, Except.map]
  · have htext : Number.integerText n = Nat.toDigits 10 n.natAbs := by
      have : ¬n < 0 := by omega
      simp [Number.integerText, FloatStyle.sign, this]
    have hhead : c ≠ ']' := ne_of_isDigit hc (by decide)
    refine ⟨⟨c, digits, by rw [htext, heq], not_space_of_isDigit hc, hhead⟩, fun blank rest hb hs => ?_⟩
    have hnumber : readNumber false (Nat.toDigits 10 n.natAbs ++ rest) = .ok (.integer n, rest) := by
      rw [readNumber_toDigits false (by omega) hs, finishInteger_stops hs (by simp)]
      have : ((n.natAbs : Nat) : Int) = n := by omega
      rw [if_neg Bool.false_ne_true, this]
    have hn : c ≠ 'n' := ne_of_isDigit hc (by decide)
    have ht : c ≠ 't' := ne_of_isDigit hc (by decide)
    have hf : c ≠ 'f' := ne_of_isDigit hc (by decide)
    have hm : c ≠ '-' := ne_of_isDigit hc (by decide)
    rw [heq, List.cons_append] at hnumber
    have hspace : skipSpace (c :: (digits ++ rest)) = _ := skipSpace_cons (not_space_of_isDigit hc) _
    rw [readValue_blank hb, htext, heq, List.cons_append, readValue.eq_def]
    simp [hspace, hn, ht, hf, hm, hc, hnumber, Except.map]

theorem rereads_string (depth : Nat) (s : String) : Rereads (readValue depth) (quote s) (string s) := by
  refine ⟨⟨'"', _, rfl, by decide, by decide⟩, fun blank rest hb _ => ?_⟩
  have hs := readString_quote s rest
  have htext : quote s ++ rest = '"' :: ((s.toList.flatMap escape ++ ['"']) ++ rest) := by
    simp [quote]
  have hspace : skipSpace ('"' :: ((s.toList.flatMap escape ++ ['"']) ++ rest)) = _ :=
    skipSpace_cons (by decide) _
  have hdigit : isDigit '"' = false := by decide
  rw [readValue_blank hb, htext, readValue.eq_def]
  simp only [hspace, hs, hdigit]
  rfl

theorem readWord_append {α : Type} (value : α) (word rest : List Char) :
    readWord value word (word ++ rest) = .ok (value, rest) := by
  induction word with
  | nil => rfl
  | cons c word ih =>
    rw [List.cons_append, readWord, if_pos rfl]
    exact ih

theorem rereads_word (depth : Nat) {value : Json} {c : Char} {word : List Char} (hc : isSpace c = false)
    (hbracket : c ≠ ']') (h : ∀ rest, readValue depth (c :: rest) = readWord value word rest) :
    Rereads (readValue depth) (c :: word) value := by
  refine ⟨⟨c, word, rfl, hc, hbracket⟩, fun blank rest hb _ => ?_⟩
  rw [readValue_blank hb, List.cons_append, h, readWord_append]

theorem rereads_null (depth : Nat) : Rereads (readValue depth) ['n', 'u', 'l', 'l'] null :=
  rereads_word depth (by decide) (by decide) fun rest => by
    rw [readValue.eq_def]
    rfl

theorem rereads_bool (depth : Nat) (b : Bool) : Rereads (readValue depth) (boolText b) (bool b) := by
  cases b with
  | false =>
    exact rereads_word depth (by decide) (by decide) fun rest => by
      rw [readValue.eq_def]
      rfl
  | true =>
    exact rereads_word depth (by decide) (by decide) fun rest => by
      rw [readValue.eq_def]
      rfl

/-! ## Arrays and objects -/

/-- Pieces each behind a comma and the white space `before`, and `after` at the end. -/
def commas (before after : List Char) : List (List Char) → List Char
  | [] => after
  | piece :: pieces => ',' :: before ++ (piece ++ commas before after pieces)

/-- Pieces with commas between them, each behind the white space `before`, and `after` at the end. -/
def joined (before after : List Char) : List (List Char) → List Char
  | [] => []
  | piece :: pieces => before ++ (piece ++ commas before after pieces)

/-- A field of an object as it is written: its key, and the text of its value. -/
def fieldText {α : Type} (gap : List Char) (text : α → List Char) (field : String × α) : List Char :=
  quote field.1 ++ (':' :: gap ++ text field.2)

theorem length_le_length_commas (before after : List Char) (pieces : List (List Char)) :
    pieces.length ≤ (commas before after pieces).length := by
  induction pieces with
  | nil => exact Nat.zero_le _
  | cons piece pieces ih =>
    simp only [commas, List.length_cons, List.length_append, List.cons_append]
    omega

theorem length_le_length_joined (before after : List Char) (pieces : List (List Char)) :
    pieces.length ≤ (joined before after pieces).length + 1 := by
  cases pieces with
  | nil => exact Nat.zero_le _
  | cons piece pieces =>
    have := length_le_length_commas before after pieces
    simp only [joined, List.length_cons, List.length_append]
    omega

theorem stops_closing {c : Char} (h : c = ']' ∨ c = '\x7d') (rest : List Char) : Stops (c :: rest) := by
  show isDigit c = false ∧ c ≠ '.' ∧ c ≠ 'e' ∧ c ≠ 'E'
  rcases h with rfl | rfl <;> decide

section

variable {α β : Type} {before after gap : List Char}

theorem stops_commas (before : List Char) (ha : IsBlank after) (pieces : List (List Char)) {rest : List Char}
    (hrest : Stops rest) : Stops (commas before after pieces ++ rest) := by
  cases pieces with
  | nil => exact Stops.blank ha hrest
  | cons piece pieces =>
    show isDigit ',' = false ∧ ',' ≠ '.' ∧ ',' ≠ 'e' ∧ ',' ≠ 'E'
    decide

/-- What is read next behind white space. -/
theorem Rereads.ahead {item : Reader α} {text : List Char} {x : α} (h : Rereads item text x)
    (hb : IsBlank before) {more : List Char} (hmore : Stops more) :
    ∃ c rest, skipSpace (before ++ (text ++ more)) = c :: rest ∧ c ≠ ']' ∧
      item (c :: rest) = .ok (x, more) := by
  obtain ⟨c, tail, htext, hspace, hbracket⟩ := h.head
  have hread : item (text ++ more) = .ok (x, more) := h.read [] more isBlank_nil hmore
  rw [htext, List.cons_append] at hread
  refine ⟨c, tail ++ more, ?_, hbracket, hread⟩
  rw [skipSpace_blank hb, htext, List.cons_append, skipSpace_cons hspace]

/-- The items behind the first are read back up to the closing bracket. -/
theorem readItems_commas {item : Reader β} {text : α → List Char} {f : α → β} (hb : IsBlank before)
    (ha : IsBlank after) {xs : List α} (h : ∀ x ∈ xs, Rereads item (text x) (f x)) {fuel : Nat}
    (hfuel : xs.length < fuel) (rest : List Char) :
    readItems item fuel false (commas before after (xs.map text) ++ ']' :: rest) =
      .ok (xs.map f, rest) := by
  induction xs generalizing fuel with
  | nil =>
    obtain ⟨fuel, rfl⟩ := Nat.exists_eq_succ_of_ne_zero (Nat.ne_zero_of_lt hfuel)
    have hspace : skipSpace (after ++ ']' :: rest) = ']' :: rest := by
      rw [skipSpace_blank ha, skipSpace_cons (by decide)]
    show readItems item (fuel + 1) false (after ++ ']' :: rest) = _
    rw [readItems, hspace]
    rfl
  | cons x xs ih =>
    obtain ⟨fuel, rfl⟩ := Nat.exists_eq_succ_of_ne_zero (Nat.ne_zero_of_lt hfuel)
    obtain ⟨hx, hxs⟩ := List.forall_mem_cons.1 h
    have hmore := ih hxs (Nat.lt_of_succ_lt_succ hfuel)
    obtain ⟨c, ahead, hnext, hbracket, hread⟩ := hx.ahead hb
      (stops_commas before ha (xs.map text) (stops_closing (.inl rfl) rest))
    have htext : commas before after ((x :: xs).map text) ++ ']' :: rest =
        ',' :: (before ++ (text x ++ (commas before after (xs.map text) ++ ']' :: rest))) := by
      simp [commas]
    rw [htext, readItems, skipSpace_cons (by decide)]
    simp only [Char.reduceEq, if_false, if_true, Bool.false_eq_true, hnext, hbracket, hread, bind,
      Except.bind, hmore]
    rfl

/-- The items of an array are read back behind its opening bracket. -/
theorem readItems_joined {item : Reader β} {text : α → List Char} {f : α → β} (hb : IsBlank before)
    (ha : IsBlank after) {xs : List α} (h : ∀ x ∈ xs, Rereads item (text x) (f x)) {fuel : Nat}
    (hfuel : xs.length < fuel) (rest : List Char) :
    readItems item fuel true (joined before after (xs.map text) ++ ']' :: rest) =
      .ok (xs.map f, rest) := by
  obtain ⟨fuel, rfl⟩ := Nat.exists_eq_succ_of_ne_zero (Nat.ne_zero_of_lt hfuel)
  cases xs with
  | nil =>
    show readItems item (fuel + 1) true (']' :: rest) = _
    rw [readItems, skipSpace_cons (by decide)]
    rfl
  | cons x xs =>
    obtain ⟨hx, hxs⟩ := List.forall_mem_cons.1 h
    have hmore := readItems_commas hb ha hxs (Nat.lt_of_succ_lt_succ hfuel) rest
    obtain ⟨c, ahead, hnext, hbracket, hread⟩ := hx.ahead hb
      (stops_commas before ha (xs.map text) (stops_closing (.inl rfl) rest))
    have htext : joined before after ((x :: xs).map text) ++ ']' :: rest =
        before ++ (text x ++ (commas before after (xs.map text) ++ ']' :: rest)) := by
      simp [joined]
    rw [htext, readItems, hnext]
    simp only [if_true, if_neg hbracket, hread, bind, Except.bind, hmore]
    rfl

/-! ### Tables -/

/-- The value of a field is read back behind its key. -/
theorem tableEntry_gap {value : Reader α} {text : List Char} {v : α} (h : Rereads value text v)
    (hg : IsBlank gap) (table : Table α) (key : String) {rest : List Char} (hs : Stops rest) :
    tableEntry value table key (':' :: gap ++ (text ++ rest)) = .ok (table.insert key v, rest) := by
  have hcolon : readColon (':' :: (gap ++ (text ++ rest))) = .ok (gap ++ (text ++ rest)) := by
    rw [readColon, skipSpace_cons (by decide)]
    rfl
  unfold tableEntry
  rw [List.cons_append, hcolon]
  simp only [bind, Except.bind, h.read gap rest hg hs]
  rfl

/-- The entry of a field is read back behind the opening quote of its key. -/
theorem readEntry_fieldText {value : Reader β} {text : α → List Char} {field : String × α} {v : β}
    (h : Rereads value (text field.2) v) (hg : IsBlank gap) (table : Table β) {rest : List Char}
    (hs : Stops rest) :
    ∃ ahead behind, fieldText gap text field ++ rest = '"' :: ahead ∧
      readString ahead = .ok (field.1, behind) ∧
      tableEntry value table field.1 behind = .ok (table.insert field.1 v, rest) := by
  refine ⟨(field.1.toList.flatMap escape ++ ['"']) ++ (':' :: gap ++ (text field.2 ++ rest)),
    ':' :: gap ++ (text field.2 ++ rest), ?_, ?_, ?_⟩
  · simp [fieldText, quote]
  · exact readString_quote field.1 _
  · exact tableEntry_gap h hg table field.1 hs

/-- The fields behind the first are read back into a table up to the closing brace. -/
theorem foldEntries_commas {value : Reader β} {text : α → List Char} {f : α → β} (hb : IsBlank before)
    (ha : IsBlank after) (hg : IsBlank gap) {fields : List (String × α)}
    (h : ∀ field ∈ fields, Rereads value (text field.2) (f field.2)) (table : Table β) {fuel : Nat}
    (hfuel : fields.length < fuel) (rest : List Char) :
    foldEntries (tableEntry value) fuel false table
        (commas before after (fields.map (fieldText gap text)) ++ '\x7d' :: rest) =
      .ok (table.union (fields.map (Prod.map id f)), '\x7d' :: rest) := by
  induction fields generalizing fuel table with
  | nil =>
    obtain ⟨fuel, rfl⟩ := Nat.exists_eq_succ_of_ne_zero (Nat.ne_zero_of_lt hfuel)
    have hspace : skipSpace (after ++ '\x7d' :: rest) = '\x7d' :: rest := by
      rw [skipSpace_blank ha, skipSpace_cons (by decide)]
    show foldEntries (tableEntry value) (fuel + 1) false table (after ++ '\x7d' :: rest) = _
    rw [foldEntries, hspace]
    rfl
  | cons field fields ih =>
    obtain ⟨fuel, rfl⟩ := Nat.exists_eq_succ_of_ne_zero (Nat.ne_zero_of_lt hfuel)
    obtain ⟨hfield, hfields⟩ := List.forall_mem_cons.1 h
    have hmore := ih hfields (table.insert field.1 (f field.2)) (Nat.lt_of_succ_lt_succ hfuel)
    have hstops : Stops (commas before after (fields.map (fieldText gap text)) ++ '\x7d' :: rest) :=
      stops_commas before ha _ (stops_closing (.inr rfl) rest)
    obtain ⟨ahead, behind, htext, hkey, hentry⟩ := readEntry_fieldText hfield hg table hstops
    have hnext : skipSpace (before ++ '"' :: ahead) = '"' :: ahead := by
      rw [skipSpace_blank hb, skipSpace_cons (by decide)]
    have hall : commas before after ((field :: fields).map (fieldText gap text)) ++ '\x7d' :: rest =
        ',' :: (before ++ '"' :: ahead) := by
      rw [← htext]
      simp [commas]
    rw [hall, foldEntries, skipSpace_cons (by decide)]
    simp only [Char.reduceEq, if_false, if_true, Bool.false_eq_true, hnext, hkey, hentry, bind,
      Except.bind, hmore]
    rfl

/-- The fields of an object are read back into a table behind its opening brace. -/
theorem readTable_fields {value : Reader β} {text : α → List Char} {f : α → β} (hb : IsBlank before)
    (ha : IsBlank after) (hg : IsBlank gap) {fields : List (String × α)}
    (h : ∀ field ∈ fields, Rereads value (text field.2) (f field.2)) (rest : List Char) :
    readTable value (joined before after (fields.map (fieldText gap text)) ++ '\x7d' :: rest) =
      .ok (Table.ofList (fields.map (Prod.map id f)), rest) := by
  have hfold : ∀ fuel, fields.length < fuel →
      foldEntries (tableEntry value) fuel true []
          (joined before after (fields.map (fieldText gap text)) ++ '\x7d' :: rest) =
        .ok (Table.ofList (fields.map (Prod.map id f)), '\x7d' :: rest) := by
    intro fuel hfuel
    obtain ⟨fuel, rfl⟩ := Nat.exists_eq_succ_of_ne_zero (Nat.ne_zero_of_lt hfuel)
    cases fields with
    | nil =>
      show foldEntries (tableEntry value) (fuel + 1) true [] ('\x7d' :: rest) = _
      rw [foldEntries, skipSpace_cons (by decide)]
      rfl
    | cons field fields =>
      obtain ⟨hfield, hfields⟩ := List.forall_mem_cons.1 h
      have hmore := foldEntries_commas hb ha hg hfields (Table.insert field.1 (f field.2) [])
        (Nat.lt_of_succ_lt_succ hfuel) rest
      have hstops : Stops (commas before after (fields.map (fieldText gap text)) ++ '\x7d' :: rest) :=
        stops_commas before ha _ (stops_closing (.inr rfl) rest)
      obtain ⟨ahead, behind, htext, hkey, hentry⟩ := readEntry_fieldText hfield hg [] hstops
      have hnext : skipSpace (before ++ '"' :: ahead) = '"' :: ahead := by
        rw [skipSpace_blank hb, skipSpace_cons (by decide)]
      have hall : joined before after ((field :: fields).map (fieldText gap text)) ++ '\x7d' :: rest =
          before ++ '"' :: ahead := by
        rw [← htext]
        simp [joined]
      rw [hall, foldEntries, hnext]
      simp only [Char.reduceEq, if_false, if_true, hkey, hentry, bind, Except.bind, hmore]
      rfl
  have hlength : fields.length <
      (joined before after (fields.map (fieldText gap text)) ++ '\x7d' :: rest).length + 1 := by
    have := length_le_length_joined before after (fields.map (fieldText gap text))
    rw [List.length_map] at this
    rw [List.length_append, List.length_cons]
    omega
  unfold readTable
  rw [hfold _ hlength]
  rfl

/-- A table is read back behind its opening brace. -/
theorem readTable_joined {value : Reader α} {text : α → List Char} (hb : IsBlank before)
    (ha : IsBlank after) (hg : IsBlank gap) {fields : Table α}
    (h : ∀ field ∈ fields, Rereads value (text field.2) field.2) (hordered : Table.Ordered fields)
    (rest : List Char) :
    readTable value (joined before after (fields.map (fieldText gap text)) ++ '\x7d' :: rest) =
      .ok (fields, rest) := by
  have hread := readTable_fields (f := id) hb ha hg h rest
  rwa [Prod.map_id, List.map_id, Table.ofList_of_ordered hordered] at hread

end

/-! ## Writers -/

/-- A writer of values, given the level of the first line, lays out arrays and objects with the
white space `line` in front of items at a level and `gap` behind the colon of a field. For a string or a
key it writes `f` of it. -/
structure Lays (f : String → String) (text : Nat → Json → List Char) (line : Nat → List Char)
    (gap : List Char) : Prop where
  blank_line : ∀ level, IsBlank (line level)
  blank_gap : IsBlank gap
  null : ∀ level, text level null = ['n', 'u', 'l', 'l']
  bool : ∀ level b, text level (bool b) = boolText b
  number : ∀ level n, text level (number n) = n.write
  string : ∀ level s, text level (string s) = quote (f s)
  array : ∀ level items, text level (array items) =
    '[' :: (joined (line (level + 1)) (line level) (items.map (text (level + 1))) ++ [']'])
  object : ∀ level fields, text level (object fields) =
    '\x7b' :: (joined (line (level + 1)) (line level)
      (fields.map fun field => fieldText gap (text (level + 1)) (f field.1, field.2)) ++ ['\x7d'])

theorem writeItems_eq (items : List Json) : writeItems items = joined [] [] (items.map write) := by
  cases items with
  | nil => rfl
  | cons item items =>
    show writeItems (item :: items) = write item ++ commas [] [] (items.map write)
    induction items generalizing item with
    | nil => simp [writeItems, commas]
    | cons next items ih =>
      rw [writeItems, ih next]
      · rfl
      · simp

theorem writeFields_eq (fields : List (String × Json)) :
    writeFields fields = joined [] [] (fields.map (fieldText [] write)) := by
  cases fields with
  | nil => rfl
  | cons field fields =>
    show writeFields (field :: fields) = fieldText [] write field ++ commas [] [] (fields.map (fieldText [] write))
    induction fields generalizing field with
    | nil => simp [writeFields, commas, fieldText]
    | cons next fields ih =>
      rw [writeFields, ih next]
      · simp [fieldText, commas]
      · simp

/-- How values are written in one line. -/
theorem lays_write : Lays id (fun _ => write) (fun _ => []) [] where
  blank_line _ := isBlank_nil
  blank_gap := isBlank_nil
  null _ := by rw [write]
  bool _ _ := by rw [write]
  number _ _ := by rw [write]
  string _ _ := by rw [write]; rfl
  array _ items := by rw [write, writeItems_eq, List.cons_append]
  object _ fields := by rw [write, writeFields_eq, List.cons_append]; rfl

theorem prettyItems_eq (level : Nat) (after : List Char) (items : List Json) :
    prettyItems level items ++ after = commas (newLine level) after (items.map (writePretty level)) := by
  induction items with
  | nil => rw [prettyItems]; rfl
  | cons item items ih =>
    rw [List.map_cons, commas, ← ih, prettyItems]
    simp

theorem prettyFields_eq (level : Nat) (after : List Char) (fields : List (String × Json)) :
    prettyFields level fields ++ after =
      commas (newLine level) after (fields.map (fieldText [' '] (writePretty level))) := by
  induction fields with
  | nil => rw [prettyFields]; rfl
  | cons field fields ih =>
    rw [List.map_cons, commas, ← ih, prettyFields]
    simp [fieldText]

theorem isBlank_newLine (level : Nat) : IsBlank (newLine level) := by
  intro c hc
  rcases List.mem_cons.1 hc with rfl | hc
  · decide
  · rw [List.eq_of_mem_replicate hc]
    decide

/-- How values are written over several lines. -/
theorem lays_writePretty : Lays id writePretty newLine [' '] where
  blank_line := isBlank_newLine
  blank_gap := by
    intro c hc
    rw [List.mem_singleton.1 hc]
    decide
  null _ := by rw [writePretty]
  bool _ _ := by rw [writePretty]
  number _ _ := by rw [writePretty]
  string _ _ := by rw [writePretty]; rfl
  array level items := by
    cases items with
    | nil => rw [writePretty]; rfl
    | cons item items =>
      rw [writePretty, List.map_cons, joined, ← prettyItems_eq]
      simp
  object level fields := by
    show writePretty level (Json.object fields) = '\x7b' ::
      (joined (newLine (level + 1)) (newLine level)
        (fields.map (fieldText [' '] (writePretty (level + 1)))) ++ ['\x7d'])
    cases fields with
    | nil => rw [writePretty]; rfl
    | cons field fields =>
      rw [writePretty, List.map_cons, joined, ← prettyFields_eq]
      simp [fieldText]

section

variable {f : String → String} {text : Nat → Json → List Char} {line : Nat → List Char}
  {gap : List Char}

theorem Lays.rereads_array (h : Lays f text line gap) {depth : Nat} {items : List Json} (level : Nat)
    (hitems : ∀ item ∈ items, Rereads (readValue depth) (text (level + 1) item) (item.mapStrings f)) :
    Rereads (readValue (depth + 1)) (text level (Json.array items))
      ((Json.array items).mapStrings f) := by
  rw [h.array, mapStrings, mapStringsItems_eq]
  refine ⟨⟨'[', _, rfl, by decide, by decide⟩, fun blank rest hb hs => ?_⟩
  generalize hinner :
    joined (line (level + 1)) (line level) (items.map (text (level + 1))) = inner
  have hlength : items.length < (inner ++ ']' :: rest).length + 1 := by
    have := length_le_length_joined (line (level + 1)) (line level) (items.map (text (level + 1)))
    rw [hinner, List.length_map] at this
    rw [List.length_append, List.length_cons]
    omega
  have hread := readItems_joined (h.blank_line (level + 1)) (h.blank_line level) hitems hlength rest
  rw [hinner] at hread
  have htext : blank ++ ('[' :: (inner ++ [']']) ++ rest) = blank ++ '[' :: (inner ++ ']' :: rest) := by
    simp
  have hspace : skipSpace ('[' :: (inner ++ ']' :: rest)) = _ := skipSpace_cons (by decide) _
  rw [htext, readValue_blank hb, readValue.eq_def]
  simp only [hspace, hread]
  rfl

theorem Lays.rereads_object (h : Lays f text line gap) {depth : Nat} {fields : List (String × Json)}
    (level : Nat)
    (hfields : ∀ field ∈ fields,
      Rereads (readValue depth) (text (level + 1) field.2) (field.2.mapStrings f)) :
    Rereads (readValue (depth + 1)) (text level (Json.object fields))
      ((Json.object fields).mapStrings f) := by
  rw [h.object, mapStrings, mapStringsFields_eq]
  refine ⟨⟨'\x7b', _, rfl, by decide, by decide⟩, fun blank rest hb hs => ?_⟩
  have hkeys : ∀ field ∈ fields.map (Prod.map f id),
      Rereads (readValue depth) (text (level + 1) field.2) (field.2.mapStrings f) :=
    List.forall_mem_map.2 hfields
  have hread := readTable_fields (h.blank_line (level + 1)) (h.blank_line level) h.blank_gap hkeys rest
  have hmap : (fields.map (Prod.map f id)).map (Prod.map id (mapStrings f)) =
      fields.map (Prod.map f (mapStrings f)) := by
    rw [List.map_map]
    rfl
  have hfields : (fields.map (Prod.map f id)).map (fieldText gap (text (level + 1))) =
      fields.map fun field => fieldText gap (text (level + 1)) (f field.1, field.2) := by
    rw [List.map_map]
    rfl
  rw [hmap, hfields] at hread
  generalize joined (line (level + 1)) (line level)
    (fields.map fun field => fieldText gap (text (level + 1)) (f field.1, field.2)) = inner at hread
  have htext : blank ++ ('\x7b' :: (inner ++ ['\x7d']) ++ rest) =
      blank ++ '\x7b' :: (inner ++ '\x7d' :: rest) := by
    simp
  have hspace : skipSpace ('\x7b' :: (inner ++ '\x7d' :: rest)) = _ := skipSpace_cons (by decide) _
  rw [htext, readValue_blank hb, readValue.eq_def]
  simp only [hspace, hread]
  rfl

/-- What a writer writes of a value is read back with the strings that have been written. -/
theorem Lays.rereads_mapStrings (h : Lays f text line gap) {depth : Nat} (value : Json)
    (hgood : IsGood depth value) (hwhole : value.isWhole = true) (level : Nat) :
    Rereads (readValue depth) (text level value) (value.mapStrings f) := by
  match value with
  | .null =>
    rw [h.null, mapStrings]
    exact rereads_null depth
  | .bool b =>
    rw [h.bool, mapStrings]
    exact rereads_bool depth b
  | .number (.integer n) =>
    have hrange : Number.InRange (.integer n) := by simpa only [IsSound] using hgood.sound
    rw [h.number, mapStrings]
    exact rereads_integer depth hrange
  | .number (.float x) => simp [isWhole] at hwhole
  | .string s =>
    rw [h.string, mapStrings]
    exact rereads_string depth (f s)
  | .array items =>
    obtain ⟨depth, rfl⟩ := hgood.exists_succ (by simp [Json.depth])
    rw [isWhole, areWhole_iff] at hwhole
    refine h.rereads_array level fun item hmem => ?_
    have := List.sizeOf_lt_of_mem hmem
    exact h.rereads_mapStrings item (isGood_array.1 hgood item hmem) (hwhole item hmem) (level + 1)
  | .object fields =>
    obtain ⟨depth, rfl⟩ := hgood.exists_succ (by simp [Json.depth])
    rw [isWhole, fieldsWhole_iff] at hwhole
    obtain ⟨-, hfields⟩ := isGood_object.1 hgood
    refine h.rereads_object level fun field hmem => ?_
    have := List.sizeOf_lt_of_mem hmem
    obtain ⟨key, inner⟩ := field
    exact h.rereads_mapStrings inner (hfields _ hmem) (hwhole _ hmem) (level + 1)
termination_by sizeOf value
decreasing_by
  · simp only [Json.array.sizeOf_spec]
    omega
  · simp only [Json.object.sizeOf_spec, Prod.mk.sizeOf_spec] at *
    omega

/-- What a writer writes of a value is read back, if it writes the strings as they are. -/
theorem Lays.rereads (h : Lays id text line gap) {depth : Nat} (value : Json)
    (hgood : IsGood depth value) (hwhole : value.isWhole = true) (level : Nat) :
    Rereads (readValue depth) (text level value) value := by
  have hread := h.rereads_mapStrings value hgood hwhole level
  rwa [mapStrings_id hgood.sound] at hread

end

/-- A value that is written in one line is read back. -/
theorem read_compact {value : Json} (h : IsGood maxDepth value) (hwhole : value.isWhole = true) :
    read value.compact = .ok value :=
  (lays_write.rereads value h hwhole 0).readAll

/-- A value that is written over several lines is read back. -/
theorem read_pretty {value : Json} (h : IsGood maxDepth value) (hwhole : value.isWhole = true) :
    read value.pretty = .ok value :=
  (lays_writePretty.rereads value h hwhole 0).readAll

end Json

end Evomark
