import Evomark.Registry
import Evomark.Proofs.Document.Canonical
import Evomark.Proofs.Document.Printing
import Evomark.Proofs.Document.Reread
import Evomark.Proofs.Json.ReadBack
import Evomark.Proofs.Markup.Nested
/-!
# Canonical texts

The texts, names and values of canonical trees (`Proofs.Document.Canonical`): texts are normal and
start no construct (`isRun_of_isText`), values are read back (`paramValue_of_isValue`), and all of them
can stand in a body.
-/

namespace Evomark.Canonical

open Text Node Markup Clause

/-! ## Characters -/

theorem ne_of_isLineChar {c d : Char} (hc : isLineChar c = true) (hd : isLineChar d = false) : c ≠ d := by
  rintro rfl
  rw [hc] at hd
  exact Bool.noConfusion hd

theorem isNameChar_of_isAlphanum {c : Char} (h : c.isAlphanum = true) : Window.isNameChar c = true := by
  delta Char.isAlphanum Char.isAlpha Char.isUpper Char.isLower at h
  rw [Bool.or_eq_true, Bool.or_eq_true] at h
  rcases h with (h | h) | h
  · simp only [decide_eq_true_eq] at h
    simp only [Window.isNameChar, Window.isNameStart, Bool.or_eq_true, Bool.and_eq_true, decide_eq_true_eq]
    exact .inl (.inl (.inr h))
  · simp only [Bool.and_eq_true, decide_eq_true_eq] at h
    simp only [Window.isNameChar, Window.isNameStart, Bool.or_eq_true, Bool.and_eq_true, decide_eq_true_eq]
    exact .inl (.inl (.inl h))
  · exact isNameChar_of_isDigit h

theorem not_white_of_isLineChar {c : Char} (h : isLineChar c = true) (hs : c ≠ ' ') :
    isWhite c = false := by
  rw [isLineChar, Bool.or_eq_true] at h
  rcases h with h | h
  · exact not_white_of_isNameChar (isNameChar_of_isAlphanum h)
  · simp only [List.contains_iff_mem, List.mem_cons, List.not_mem_nil, or_false] at h
    rcases h with h | rfl | rfl | rfl | rfl | rfl | rfl | rfl | rfl | rfl
    · exact absurd h hs
    all_goals rfl

theorem isInert_of_isNameChar {c : Char} (h : Window.isNameChar c = true) : IsInert c := by
  constructor
  · intro hc
    simp only [List.mem_cons, List.not_mem_nil, or_false] at hc
    rcases hc with rfl | rfl | rfl <;> exact absurd h (by decide)
  · rintro rfl
    exact absurd h (by decide)

theorem isInert_of_isLineChar {c : Char} (h : isLineChar c = true) : IsInert c := by
  refine ⟨fun hc => ?_, ne_of_isLineChar h (by decide)⟩
  simp only [List.mem_cons, List.not_mem_nil, or_false] at hc
  rcases hc with rfl | rfl | rfl <;> exact absurd h (by decide)

/-- A character of code is no part of a fence and closes no body. -/
theorem isCodeChar_cases {oneLine : Bool} {c : Char} (h : isCodeChar oneLine c = true) :
    c ∉ ['\\', '\x7b', '\x7d'] ∧ c ≠ '|' ∧ (oneLine = true → c ≠ '\n') := by
  simp only [isCodeChar, Bool.and_eq_true, Bool.not_eq_true', List.contains_eq_mem, List.mem_cons,
    List.not_mem_nil, or_false, decide_eq_false_iff_not, not_or, Bool.and_eq_false_iff,
    beq_eq_false_iff_ne] at h
  obtain ⟨⟨hopen, hclose, hslash, hbar⟩, hbreak⟩ := h
  refine ⟨by simp [hopen, hclose, hslash], hbar, fun hone => hbreak.resolve_left ?_⟩
  simp [hone]

theorem isInert_of_isBlank {c : Char} (h : isBlank c = true) : IsInert c := by
  obtain rfl | rfl : c = ' ' ∨ c = '\t' := by simpa [isBlank] using h
  · decide
  · decide

/-! ## Texts -/

theorem solid_of_isLine {cs : List Char} (h : isLine cs = true) : Solid cs ∧ '\n' ∉ cs := by
  simp only [isLine, Bool.and_eq_true, Bool.not_eq_true', bne_iff_ne, List.all_eq_true] at h
  obtain ⟨⟨⟨hne, hall⟩, hhead⟩, hlast⟩ := h
  have hne : cs ≠ [] := by simpa using hne
  refine ⟨⟨?_, ?_⟩, fun hn => ne_of_isLineChar (hall _ hn) (by decide) rfl⟩
  · obtain ⟨c, rest, rfl⟩ := List.exists_cons_of_ne_nil hne
    exact ⟨c, rest, rfl, not_white_of_isLineChar (hall c (.head _)) (by simpa using hhead)⟩
  · obtain ⟨front, c, rfl⟩ := (List.eq_nil_or_concat cs).resolve_left hne
    rw [List.concat_eq_append] at hall hlast ⊢
    exact ⟨front, c, rfl, not_white_of_isLineChar (hall c (by simp)) (by simpa using hlast)⟩

section

variable {oneLine : Bool} {content : String}

theorem isLine_of_isText (h : isText oneLine content = true) :
    ∀ line ∈ splitLines content.toList, isLine line = true := by
  rw [isText, Bool.and_eq_true, List.all_eq_true] at h
  exact h.1

theorem not_break_of_isText (h : isText oneLine content = true) (hl : oneLine = true) :
    '\n' ∉ content.toList := by
  rw [isText, Bool.and_eq_true, hl] at h
  simpa using h.2

theorem mem_of_isText (h : isText oneLine content = true) {c : Char} (hc : c ∈ content.toList) :
    c = '\n' ∨ isLineChar c = true := by
  rw [← joinLines_splitLines content.toList] at hc
  refine (mem_joinLines hc).imp_right fun ⟨line, hline, hmem⟩ => ?_
  have hl := isLine_of_isText h line hline
  simp only [isLine, Bool.and_eq_true, List.all_eq_true] at hl
  exact hl.1.1.2 c hmem

/-- A text of lines is normal, and has no character that starts a construct. -/
theorem isRun_of_isText (h : isText oneLine content = true) {banned signs : List Char}
    (hb : ∀ c ∈ banned ++ signs, isLineChar c = false ∧ c ≠ '\n') : IsRun banned signs content := by
  have hlines := isLine_of_isText h
  have hnot : ∀ c ∈ content.toList, c ∉ banned ++ signs := by
    intro c hc hmem
    rcases mem_of_isText h hc with hn | hl
    · exact (hb c hmem).2 hn
    · exact ne_of_isLineChar hl (hb c hmem).1 rfl
  refine ⟨?_, ?_, fun c hc hmem => hnot c hc (List.mem_append_left _ hmem), ?_⟩
  · have hjoin := lines_joinLines fun line hline => solid_of_isLine (hlines line hline)
    rw [joinLines_splitLines] at hjoin
    rw [normalizeLines_eq, hjoin, joinLines_splitLines]
  · intro hnil
    rw [hnil] at hlines
    exact absurd (hlines [] (by simp [splitLines])) (by decide)
  · refine (List.isChain_isInfix _).imp fun c d hi => ?_
    rintro ⟨hsign, -⟩
    exact hnot c (hi.subset (.head _)) (List.mem_append_right _ hsign)

theorem isProse_of_isText (h : isText oneLine content = true) : IsProse content :=
  isRun_of_isText h (forall_mem_of_all rfl)

theorem isLiteral_of_isText (h : isText oneLine content = true) : IsLiteral content :=
  isRun_of_isText h (forall_mem_of_all rfl)

end

theorem isName_of_isName {name : String} (h : isName name = true) : Markup.IsName name := by
  unfold isName at h
  split at h
  · exact absurd h (by decide)
  · rename_i c rest hname
    rw [Bool.and_eq_true, List.all_eq_true] at h
    exact ⟨c, rest, hname, h.1, h.2⟩

/-! ## Values -/

/-- A value of a parameter is read back. -/
theorem paramValue_of_isValue {value : Json} (h : isValue value = true) :
    Clause.paramValue value.compact = value := by
  have hread : Json.read value.compact = .ok value := by
    cases value with
    | number n =>
      cases n with
      | integer n =>
        simp only [isValue, Bool.and_eq_true, decide_eq_true_eq] at h
        refine Json.read_compact ⟨?_, ?_⟩ rfl
        · rw [Json.IsSound]
          exact h
        · simp [Json.depth]
      | float x => simp [isValue] at h
    | string s => exact Json.read_compact (Json.isGood_string _ s) rfl
    | null | bool | array | object => simp [isValue] at h
  rw [Clause.paramValue, hread]

/-- A letter is written as it is. -/
theorem escape_of_isAlpha {c : Char} (h : c.isAlpha = true) : Json.escape c = [c] := by
  have hname : Window.isNameChar c = true := isNameChar_of_isAlphanum (by simp [Char.isAlphanum, h])
  have hrange := range_of_isNameChar hname
  have hquote : c ≠ '"' := by
    rintro rfl
    exact absurd hname (by decide)
  have hslash : c ≠ '\\' := by
    rintro rfl
    exact absurd hname (by decide)
  rw [Json.escape, if_neg hquote, if_neg hslash, if_neg (by omega), if_neg (by omega), if_neg (by omega),
    if_neg (by omega), if_neg (by omega), if_neg (by omega)]

theorem isInert_of_mem_write {value : Json} (h : isValue value = true) {c : Char}
    (hc : c ∈ value.write) : IsInert c := by
  cases value with
  | number n =>
    obtain hd | hd : Window.isNameChar c = true ∨ c = '.' ∨ c = '-' ∨ c = '+' ∨ c = 'e' :=
      (isNumberChar_of_mem_write (by rwa [Json.write] at hc)).imp_left isNameChar_of_isDigit
    · exact isInert_of_isNameChar hd
    · rcases hd with rfl | rfl | rfl | rfl <;> decide
  | string s =>
    have hletters : ∀ c ∈ s.toList, c.isAlpha = true := List.all_eq_true.1 h
    have hquote : s.toList.flatMap Json.escape = s.toList := by
      rw [List.flatMap_congr fun c hmem => escape_of_isAlpha (hletters c hmem), List.flatMap_singleton']
    rw [Json.write, Json.quote, hquote, List.cons_append, List.mem_cons, List.mem_append,
      List.mem_singleton] at hc
    rcases hc with rfl | hc | rfl
    · decide
    · exact isInert_of_isNameChar (isNameChar_of_isAlphanum (by simp [Char.isAlphanum, hletters c hc]))
    · decide
  | null | bool | array | object => simp [isValue] at h

end Evomark.Canonical
