import Evomark.Proofs.Markup.ByteSteps
import Evomark.Proofs.Markup.Closers
import Evomark.Proofs.Markup.Delimited
/-!
# Where a clause ends in a source

In a source a clause closes at a byte (`Bracket.Closes`). The loops that look for this byte pass over one byte after
the other, or over two of them behind a backslash, and so they find what a scanner of the bytes finds: the first byte
in the window at which the clause closes (`closing_braceEnd`, `closing_parenEnd`). Nothing behind it matters, since
whether a clause closes at a byte is up to the bytes in front (`Closing.anyEnd`).

A reader takes the clause up to this byte, and is left as it was if there is none (`takeBody_of_closing`,
`takeParam_of_closing`). The end of its window need not be one of a character; the texts that are cut out stand
between signs, and these are characters of their own (`isValid_of_sign`).
-/

namespace Evomark.Markup

/-! ## Bytes in front of an end -/

/-- The bytes of a source, as the characters of their codes. -/
def bytesOf (s : String) : List Char := (encode s.toList).map Char.ofUInt8

/-- The bytes from `i` up to `stop`. -/
def Bytes (s : String) (stop i : Nat) (cs : List Char) : Prop := ((bytesOf s).take stop).drop i = cs

theorem length_bytesOf (s : String) : (bytesOf s).length = s.utf8ByteSize := by
  rw [bytesOf, List.length_map, length_encode, utf8ByteSize_eq]

section

variable {s : String} {stop i : Nat} {c : Char} {cs : List Char}

theorem byteAt_of_getElem? (h : (bytesOf s)[i]? = some c) : byteAt s i = pure c := by
  rw [bytesOf, List.getElem?_map, Option.map_eq_some_iff] at h
  obtain ⟨b, hb, rfl⟩ := h
  obtain ⟨hlt, rfl⟩ := List.getElem?_eq_some_iff.1 hb
  have hspells : Spells s i [(encode s.toList)[i]] := by
    rw [Spells, List.drop_eq_getElem_cons hlt]
    exact ⟨_, rfl⟩
  exact hspells.cons.1

theorem bytesBetween_eq {start : Nat} (hle : start ≤ stop) (hstop : stop ≤ s.utf8ByteSize) :
    bytesBetween s start stop = pure (((bytesOf s).take stop).drop start) := by
  rw [bytesBetween, if_pos ⟨hle, hstop⟩, ByteArray.data_extract, Array.toList_extract, toByteArray_toList,
    List.extract_eq_take_drop, bytesOf, List.drop_take, List.map_take, List.map_drop]

namespace Bytes

theorem nil (h : Bytes s stop i []) (hstop : stop ≤ s.utf8ByteSize) : ¬i < stop := by
  have hlength := List.drop_eq_nil_iff.1 h
  rw [List.length_take, length_bytesOf, Nat.min_eq_left hstop] at hlength
  exact Nat.not_lt.2 hlength

theorem cons (h : Bytes s stop i (c :: cs)) : i < stop ∧ byteAt s i = pure c ∧ Bytes s stop (i + 1) cs := by
  have hget : ((bytesOf s).take stop)[i]? = some c := by
    rw [← List.head?_drop, show ((bytesOf s).take stop).drop i = _ from h]
    rfl
  rw [List.getElem?_take] at hget
  split at hget
  · rename_i hlt
    refine ⟨hlt, byteAt_of_getElem? hget, ?_⟩
    rw [Bytes, ← List.tail_drop, show ((bytesOf s).take stop).drop i = _ from h]
    rfl
  · cases hget

theorem length_eq (h : Bytes s stop i cs) (hstop : stop ≤ s.utf8ByteSize) : cs.length = stop - i := by
  rw [← h, List.length_drop, List.length_take, length_bytesOf, Nat.min_eq_left hstop]

end Bytes

/-! ## Loops -/

/-- A split behind some bytes gives an offset behind them. -/
theorem map_extend_length (front : List Char) (found : Option (List Char × List Char)) (i : Nat) :
    (Clause.extend front found).map (fun (inner, _) => i + inner.length) =
      found.map fun (inner, _) => i + front.length + inner.length := by
  cases found with
  | none => rfl
  | some found => simp [Clause.extend, Nat.add_assoc]

/-- The loop for braces finds what the scanner finds in the bytes. -/
theorem braceEnd_of_bytes (hstop : stop ≤ s.utf8ByteSize) {depth : Nat} (h : Bytes s stop i cs) :
    braceEnd s stop depth i = pure ((Clause.splitBraces depth cs).map fun (inner, _) => i + inner.length) := by
  fun_induction Clause.splitBraces depth cs generalizing i with
  | case1 =>
    rw [braceEnd, if_neg (h.nil hstop)]
    rfl
  | case2 depth =>
    obtain ⟨hlt, hbyte, hrest⟩ := h.cons
    have hend := hrest.nil hstop
    rw [braceEnd, if_pos hlt, hbyte, pure_bind, if_pos rfl, braceEnd, if_neg (by omega)]
    rfl
  | case3 depth d more ih =>
    obtain ⟨hlt, hbyte, hrest⟩ := h.cons
    obtain ⟨-, -, hmore⟩ := hrest.cons
    rw [braceEnd, if_pos hlt, hbyte, pure_bind, if_pos rfl, map_extend_length]
    exact ih hmore
  | case4 depth rest hc ih =>
    obtain ⟨hlt, hbyte, hrest⟩ := h.cons
    rw [braceEnd, if_pos hlt, hbyte, pure_bind, if_neg (by decide), if_pos rfl, map_extend_length]
    exact ih hrest
  | case5 rest =>
    obtain ⟨hlt, hbyte, -⟩ := h.cons
    rw [braceEnd, if_pos hlt, hbyte, pure_bind, if_neg (by decide), if_neg (by decide), if_pos rfl, if_pos rfl]
    rfl
  | case6 rest _ _ depth ih =>
    obtain ⟨hlt, hbyte, hrest⟩ := h.cons
    rw [braceEnd, if_pos hlt, hbyte, pure_bind, if_neg (by decide), if_neg (by decide), if_pos rfl,
      if_neg (Nat.succ_ne_zero _), minus_eq (Nat.succ_le_succ (Nat.zero_le _)), pure_bind, map_extend_length]
    exact ih hrest
  | case7 depth c rest hc ho hc' ih =>
    obtain ⟨hlt, hbyte, hrest⟩ := h.cons
    rw [braceEnd, if_pos hlt, hbyte, pure_bind, if_neg hc, if_neg ho, if_neg hc', map_extend_length]
    exact ih hrest

/-- The loop for parentheses finds what the scanner finds in the bytes. -/
theorem parenEnd_of_bytes (hstop : stop ≤ s.utf8ByteSize) {depth : Nat} {quoted : Bool} (h : Bytes s stop i cs) :
    parenEnd s stop depth quoted i =
      pure ((Clause.splitParens depth quoted cs).map fun (inner, _) => i + inner.length) := by
  fun_induction Clause.splitParens depth quoted cs generalizing i with
  | case1 =>
    rw [parenEnd, if_neg (h.nil hstop)]
    rfl
  | case2 depth =>
    obtain ⟨hlt, hbyte, hrest⟩ := h.cons
    have hend := hrest.nil hstop
    rw [parenEnd, if_pos hlt, hbyte, pure_bind, if_pos rfl, if_pos rfl, parenEnd, if_neg (by omega)]
    rfl
  | case3 depth d more ih =>
    obtain ⟨hlt, hbyte, hrest⟩ := h.cons
    obtain ⟨-, -, hmore⟩ := hrest.cons
    rw [parenEnd, if_pos hlt, hbyte, pure_bind, if_pos rfl, if_pos rfl, map_extend_length]
    exact ih hmore
  | case4 depth c rest hc ih =>
    obtain ⟨hlt, hbyte, hrest⟩ := h.cons
    rw [parenEnd, if_pos hlt, hbyte, pure_bind, if_pos rfl, if_neg hc, map_extend_length]
    by_cases hquote : c = '"'
    · rw [if_pos hquote]
      rw [bne_eq_false_iff_eq.2 hquote] at ih ⊢
      exact ih hrest
    · rw [if_neg hquote]
      rw [bne_iff_ne.2 hquote] at ih ⊢
      exact ih hrest
  | case5 depth quoted rest hq ih =>
    obtain ⟨hlt, hbyte, hrest⟩ := h.cons
    rw [parenEnd, if_pos hlt, hbyte, pure_bind, if_neg hq, if_pos rfl, map_extend_length]
    exact ih hrest
  | case6 depth quoted rest hq _ ih =>
    obtain ⟨hlt, hbyte, hrest⟩ := h.cons
    rw [parenEnd, if_pos hlt, hbyte, pure_bind, if_neg hq, if_neg (by decide), if_pos rfl, map_extend_length]
    exact ih hrest
  | case7 quoted rest hq =>
    obtain ⟨hlt, hbyte, -⟩ := h.cons
    rw [parenEnd, if_pos hlt, hbyte, pure_bind, if_neg hq, if_neg (by decide), if_neg (by decide), if_pos rfl,
      if_pos rfl]
    rfl
  | case8 quoted rest hq depth _ _ ih =>
    obtain ⟨hlt, hbyte, hrest⟩ := h.cons
    rw [parenEnd, if_pos hlt, hbyte, pure_bind, if_neg hq, if_neg (by decide), if_neg (by decide), if_pos rfl,
      if_neg (Nat.succ_ne_zero _), minus_eq (Nat.succ_le_succ (Nat.zero_le _)), pure_bind, map_extend_length]
    exact ih hrest
  | case9 depth quoted c rest hq hquote ho hc ih =>
    obtain ⟨hlt, hbyte, hrest⟩ := h.cons
    rw [parenEnd, if_pos hlt, hbyte, pure_bind, if_neg hq, if_neg hquote, if_neg ho, if_neg hc, map_extend_length]
    exact ih hrest

end

end Evomark.Markup

namespace Evomark.Bracket

open Markup

/-! ## The first byte at which a clause closes -/

/-- A clause whose inside starts at a byte of the source closes at another. -/
def Closes (k : Bracket) (s : String) (start p : Nat) : Prop :=
  start ≤ p ∧ k.ClosesAt ((bytesOf s).drop start) (p - start)

/-- Where a clause whose inside starts at a byte closes in front of an end: at the first byte at which it can, or
nowhere if there is none. -/
def Closing (k : Bracket) (s : String) (start stop : Nat) : Option Nat → Prop
  | none => ∀ p < stop, ¬k.Closes s start p
  | some close => close < stop ∧ k.Closes s start close ∧ ∀ p < close, ¬k.Closes s start p

instance (k : Bracket) (s : String) (start p : Nat) : Decidable (k.Closes s start p) :=
  inferInstanceAs (Decidable (_ ∧ _ ∧ _ ∧ _))

instance (k : Bracket) (s : String) (start stop : Nat) : (found : Option Nat) → Decidable (k.Closing s start stop found)
  | none => inferInstanceAs (Decidable (∀ p < stop, ¬k.Closes s start p))
  | some close =>
    inferInstanceAs (Decidable (close < stop ∧ k.Closes s start close ∧ ∀ p < close, ¬k.Closes s start p))

variable {k : Bracket} {s : String} {start stop : Nat}

/-- Whether a clause closes at a position does not depend on what stands behind it. -/
theorem closesAt_take {n i : Nat} (h : i < n) (cs : List Char) : k.ClosesAt (cs.take n) i ↔ k.ClosesAt cs i := by
  rw [ClosesAt, ClosesAt, List.getElem?_take_of_lt h, List.take_take, Nat.min_eq_left (Nat.le_of_lt h)]

namespace Closing

theorem eq {found found' : Option Nat} (h : k.Closing s start stop found) (h' : k.Closing s start stop found') :
    found = found' := by
  cases found with
  | none =>
    cases found' with
    | none => rfl
    | some close => exact absurd h'.2.1 (h close h'.1)
  | some close =>
    cases found' with
    | none => exact absurd h.2.1 (h' close h.1)
    | some close' =>
      refine congrArg some (Nat.le_antisymm (Nat.le_of_not_lt fun hlt => ?_) (Nat.le_of_not_lt fun hlt => ?_))
      · exact h.2.2 close' hlt h'.2.1
      · exact h'.2.2 close hlt h.2.1

/-- The clause closes at the same byte in front of any end behind it. -/
theorem anyEnd {close stop' : Nat} (h : k.Closing s start stop (some close)) (hlt : close < stop') :
    k.Closing s start stop' (some close) := ⟨hlt, h.2⟩

/-- In an empty window nothing closes. -/
theorem eq_none {found : Option Nat} (h : k.Closing s start stop found) (hle : stop ≤ start) : found = none := by
  cases found with
  | none => rfl
  | some close =>
    have hlt := Nat.lt_of_lt_of_le h.1 hle
    exact absurd h.2.1.1 (Nat.not_le.2 hlt)

/-- What has been found of the bytes of a window is where the clause closes in it. -/
theorem of_finds (hstop : stop ≤ s.utf8ByteSize) {cs : List Char} (h : Bytes s stop start cs)
    {found : Option (List Char × List Char)} (hfinds : k.Finds [] cs found) :
    k.Closing s start stop (found.map fun (inner, _) => start + inner.length) := by
  have hlength := h.length_eq hstop
  have hcloses {p : Nat} (hp : p < stop) : k.Closes s start p ↔ start ≤ p ∧ k.ClosesAt cs (p - start) := by
    refine and_congr_right fun hle => ?_
    rw [← h, List.drop_take, closesAt_take (by omega)]
  cases found with
  | none =>
    intro p hp hclose
    exact hfinds _ (Nat.zero_le _) ((hcloses hp).1 hclose).2
  | some found =>
    obtain ⟨inner, behind⟩ := found
    obtain ⟨hcut, hclose, hfirst⟩ := hfinds
    have hlt : start + inner.length < stop := by
      rw [hcut, List.length_append, List.length_cons] at hlength
      omega
    rw [List.length_nil, Nat.zero_add] at hclose hfirst
    refine ⟨hlt, (hcloses hlt).2 ⟨Nat.le_add_right _ _, ?_⟩, fun p hp hearlier => ?_⟩
    · rwa [Nat.add_sub_cancel_left]
    · obtain ⟨hle, hearlier⟩ := (hcloses (Nat.lt_trans hp hlt)).1 hearlier
      have hp : p < start + inner.length := hp
      exact hfirst _ (Nat.zero_le _) (by omega) hearlier

end Closing

theorem closing_braceEnd (hstop : stop ≤ s.utf8ByteSize) (start : Nat) :
    ∃ found, braceEnd s stop 0 start = pure found ∧ brace.Closing s start stop found :=
  ⟨_, braceEnd_of_bytes hstop rfl, .of_finds hstop rfl (finds_splitBraces rfl rfl)⟩

theorem closing_parenEnd (hstop : stop ≤ s.utf8ByteSize) (start : Nat) :
    ∃ found, parenEnd s stop 0 false start = pure found ∧ paren.Closing s start stop found :=
  ⟨_, parenEnd_of_bytes hstop rfl, .of_finds hstop rfl (finds_splitParens rfl (fun _ => rfl) rfl)⟩

namespace Closing

variable {found : Option Nat}

theorem braceEnd_eq (h : brace.Closing s start stop found) (hstop : stop ≤ s.utf8ByteSize) :
    braceEnd s stop 0 start = pure found := by
  obtain ⟨found', hend, h'⟩ := closing_braceEnd hstop start
  rw [hend, h.eq h']

theorem parenEnd_eq (h : paren.Closing s start stop found) (hstop : stop ≤ s.utf8ByteSize) :
    parenEnd s stop 0 false start = pure found := by
  obtain ⟨found', hend, h'⟩ := closing_parenEnd hstop start
  rw [hend, h.eq h']

end Closing

end Evomark.Bracket

namespace Evomark.Markup

/-! ## What stands between signs -/

section

variable {s : String} {i : Nat} {c : Char}

/-- An ASCII byte is a character. -/
theorem exists_char_of_byte {cs : List Char} {b : UInt8} (h : (encode cs)[i]? = some b) (hb : b.toNat < 128) :
    ∃ before c after, cs = before ++ c :: after ∧ i = Text.byteLength before ∧ c.utf8Size = 1 := by
  induction cs generalizing i with
  | nil => cases h
  | cons c rest ih =>
    rw [encode_cons] at h
    by_cases hi : i < (String.utf8EncodeChar c).length
    · rw [List.getElem?_append_left hi] at h
      rcases encode_cases c with ⟨hc, -⟩ | ⟨-, hall⟩
      · have hsize := utf8Size_of_ascii hc
        rw [String.length_utf8EncodeChar, hsize] at hi
        exact ⟨[], c, rest, rfl, Nat.lt_one_iff.1 hi, hsize⟩
      · have := hall b (List.mem_of_getElem? h)
        omega
    · have hle := Nat.le_of_not_lt hi
      rw [List.getElem?_append_right hle] at h
      obtain ⟨before, d, after, rfl, hbefore, hd⟩ := ih h
      refine ⟨c :: before, d, after, rfl, ?_, hd⟩
      rw [String.length_utf8EncodeChar] at hle hbefore
      rw [Text.byteLength_cons]
      omega

/-- In front of a sign and behind it a text may be cut. -/
theorem isValid_of_sign (hc : c.toNat < 128) (h : (bytesOf s)[i]? = some c) :
    String.Pos.Raw.IsValid s ⟨i⟩ ∧ String.Pos.Raw.IsValid s ⟨i + 1⟩ := by
  rw [bytesOf, List.getElem?_map, Option.map_eq_some_iff] at h
  obtain ⟨b, hb, rfl⟩ := h
  have hascii : b.toNat < 128 := hc
  obtain ⟨before, d, after, hs, rfl, hd⟩ := exists_char_of_byte hb hascii
  have hat : (Window.mk (Text.byteLength before) (d :: after)).LiesIn s := ⟨before, [], by rw [hs]; simp, rfl⟩
  have hbehind : (Window.mk (Text.byteLength before + 1) after).LiesIn s := by
    refine ⟨before ++ [d], [], by rw [hs]; simp, ?_⟩
    rw [Text.byteLength_append, Text.byteLength_cons, hd]
    rfl
  exact ⟨hat.isValid_offset, hbehind.isValid_offset⟩

theorem signAt_of_not_lt {stop : Nat} (hi : ¬i < stop) (sign : Char) : signAt s stop i sign = pure false := by
  rw [signAt, if_neg hi]

theorem signAt_of_getElem? {stop : Nat} (hi : i < stop) (h : (bytesOf s)[i]? = some c) (sign : Char) :
    signAt s stop i sign = pure (c == sign) := by
  rw [signAt, if_pos hi, byteAt_of_getElem? h, map_pure]

end

/-! ## Readers -/

namespace ByteReader

/-- The reader behind a clause that has become a node. -/
def behind (b : ByteReader) (label : Label) (next : Nat) : ByteReader :=
  { b with pos := next, tree := (b.tree.pushChild b.current label).2 }

/-- The node of a body between braces, whose inside stands from one byte up to another. -/
def bracedLabel (s : String) (kind : Kind) (start close : Nat) : Label :=
  let inside := ((bytesOf s).take close).drop start
  { kind, layout := some (if inside.contains '\n' then .block else .inline), span := some ⟨start, close⟩ }

/-- The node of a parameter with this inside, which stands from one byte up to another. -/
def paramLabel (inside : String) (start close : Nat) : Label :=
  let raw := String.ofList (Text.trim inside.toList)
  { kind := .funcParam, content := raw, value := some (Clause.paramValue raw), span := some ⟨start, close⟩ }

variable {s : String} {b : ByteReader} {found : Option Nat}

theorem push_eq (h : b.current < b.tree.slots.size) (label : Label) :
    b.push label = pure (b.tree.slots.size, { b with tree := (b.tree.pushChild b.current label).2 }) := by
  rw [push, nodeAt_eq h, pure_bind]
  rfl

/-- A body is taken up to the byte at which it closes. -/
theorem takeBody_of_closing (hstop : b.stop ≤ s.utf8ByteSize) (hcurrent : b.current < b.tree.slots.size)
    (hopen : (bytesOf s)[b.pos]? = some '\x7b') (kind : Kind)
    (h : Bracket.brace.Closing s (b.pos + 1) b.stop found) :
    takeBody s kind b = match found with
      | none => pure (none, b)
      | some close => pure (some (b.tree.slots.size, ⟨b.pos + 1, close⟩),
          b.behind (bracedLabel s kind (b.pos + 1) close) (close + 1)) := by
  by_cases hpos : b.pos < b.stop
  case neg =>
    obtain rfl := h.eq_none (by omega)
    rw [takeBody, delimited, signAt_of_not_lt hpos, signAt_of_not_lt hpos]
    rfl
  rw [takeBody, delimited, signAt_of_getElem? hpos hopen, pure_bind, andThen, if_neg (by decide), pure_bind,
    if_pos (by rfl), braces, h.braceEnd_eq hstop, pure_bind]
  cases found with
  | none => rfl
  | some close =>
    have hclose : close ≤ s.utf8ByteSize := Nat.le_trans (Nat.le_of_lt h.1) hstop
    simp only [bytesBetween_eq h.2.1.1 hclose, pure_bind, push_eq hcurrent]
    rfl

/-- What stands between parentheses can be cut out, wherever the window ends. -/
theorem textBetween_of_closing {start stop close : Nat} (hopen : (bytesOf s)[start]? = some '(')
    (h : Bracket.paren.Closing s (start + 1) stop (some close)) :
    ∃ inside, textBetween s (start + 1) close = pure inside := by
  obtain ⟨hle, hcloser, -⟩ := h.2.1
  rw [List.getElem?_drop, Nat.add_sub_cancel' hle] at hcloser
  have hstart := (isValid_of_sign (by decide) hopen).2
  have hclose := (isValid_of_sign (by decide) hcloser).1
  exact ⟨_, dif_pos ⟨hle, hstart, hclose⟩⟩

/-- A parameter is taken up to the byte at which it closes. -/
theorem takeParam_of_closing (hstop : b.stop ≤ s.utf8ByteSize) (hcurrent : b.current < b.tree.slots.size)
    (hopen : (bytesOf s)[b.pos]? = some '(')
    (h : Bracket.paren.Closing s (b.pos + 1) b.stop found) :
    takeParam s b = match found with
      | none => pure (none, b)
      | some close => (do
        let inside ← textBetween s (b.pos + 1) close
        let label := paramLabel inside (b.pos + 1) close
        pure (label.value, b.behind label (close + 1))) := by
  by_cases hpos : b.pos < b.stop
  case neg =>
    obtain rfl := h.eq_none (by omega)
    rw [takeParam, signAt_of_not_lt hpos]
    rfl
  rw [takeParam, signAt_of_getElem? hpos hopen, pure_bind, if_pos (by rfl), h.parenEnd_eq hstop, pure_bind]
  cases found with
  | none => rfl
  | some close =>
    simp only [push_eq hcurrent, pure_bind]
    rfl

end ByteReader

/-! ## Windows -/

theorem pure_inj {α : Type} {x y : α} (h : (pure x : Attempt α) = pure y) : x = y :=
  Except.ok.inj (Option.some.inj h)

/-- Where a clause closes that a window in the source starts with, there it ends when the window is read. -/
theorem read?_of_closing {s : String} {w : Window} (hw : w.LiesIn s) {k : Bracket}
    (hopen : w.chars.head? = some k.opener) {found : Option Nat}
    (h : k.Closing s (w.offset + 1) w.stop found) :
    (Clause.read? w).map (fun (clause, next) => (clause.span, next.offset)) =
      found.map fun close => (⟨w.offset + 1, close⟩, close + 1) := by
  obtain ⟨rest, hchars⟩ := List.head?_eq_some_iff.1 hopen
  have hspans := spans_of_liesIn hw
  rw [hchars] at hspans
  cases k with
  | brace =>
    have hparam : Clause.param? w = none := by
      rw [Clause.param?, hchars]
      exact if_neg (by decide)
    have hend := h.braceEnd_eq hw.stop_le
    rw [braceEnd_eq (hspans.sign (by decide)).2.2] at hend
    rw [← pure_inj hend, Clause.read?, hparam, Option.none_or, Clause.body?,
      Clause.fenced?_eq_none (by rw [hopen]; decide), Option.or_none, Clause.braced?]
    simp only [hchars, Bracket.opener, if_true]
    cases Clause.splitBraces 0 rest <;> rfl
  | paren =>
    have hbody : Clause.body? w = none := by
      rw [Clause.body?, Clause.braced?_eq_none (by rw [hopen]; decide),
        Clause.fenced?_eq_none (by rw [hopen]; decide)]
      rfl
    have hend := h.parenEnd_eq hw.stop_le
    rw [parenEnd_eq (hspans.sign (by decide)).2.2] at hend
    rw [← pure_inj hend, Clause.read?, hbody, Option.or_none, Clause.param?]
    simp only [hchars, Bracket.opener, if_true]
    cases Clause.splitParens 0 false rest <;> rfl

theorem exists_closing (k : Bracket) {s : String} {stop : Nat} (hstop : stop ≤ s.utf8ByteSize) (start : Nat) :
    ∃ found, k.Closing s start stop found := by
  cases k with
  | brace =>
    obtain ⟨found, -, h⟩ := Bracket.closing_braceEnd hstop start
    exact ⟨found, h⟩
  | paren =>
    obtain ⟨found, -, h⟩ := Bracket.closing_parenEnd hstop start
    exact ⟨found, h⟩

/-- A reader in front of a brace or a parenthesis takes the clause up to the first byte of its window that holds a
closing sign which counts and has as many brackets closed as opened in front of it. Without such a byte it takes
nothing and stays as it is; with one it takes the same in front of any end behind it, be that nearer or farther than
the end of its window. And where a window lies in the source, what is read of it ends at the same byte. -/
theorem clauses_close {s : String} {b : ByteReader} (hstop : b.stop ≤ s.utf8ByteSize)
    (hcurrent : b.current < b.tree.slots.size) :
    ((bytesOf s)[b.pos]? = some '\x7b' → ∃ found, Bracket.brace.Closing s (b.pos + 1) b.stop found ∧ ∀ kind,
      match found with
      | none => b.takeBody s kind = pure (none, b)
      | some close => ∀ stop, close < stop → stop ≤ s.utf8ByteSize →
          ({ b with stop }).takeBody s kind = pure (some (b.tree.slots.size, ⟨b.pos + 1, close⟩),
            ({ b with stop }).behind (ByteReader.bracedLabel s kind (b.pos + 1) close) (close + 1))) ∧
    ((bytesOf s)[b.pos]? = some '(' → ∃ found, Bracket.paren.Closing s (b.pos + 1) b.stop found ∧
      match found with
      | none => b.takeParam s = pure (none, b)
      | some close => ∃ inside, textBetween s (b.pos + 1) close = pure inside ∧
          ∀ stop, close < stop → stop ≤ s.utf8ByteSize →
            let label := ByteReader.paramLabel inside (b.pos + 1) close
            ({ b with stop }).takeParam s = pure (label.value, ({ b with stop }).behind label (close + 1))) ∧
    ∀ w : Window, w.LiesIn s → ∀ k : Bracket, w.chars.head? = some k.opener →
      ∃ found, k.Closing s (w.offset + 1) w.stop found ∧
        (Clause.read? w).map (fun (clause, next) => (clause.span, next.offset)) =
          found.map fun close => (⟨w.offset + 1, close⟩, close + 1) := by
  refine ⟨fun hopen => ?_, fun hopen => ?_, fun w hw k hopen => ?_⟩
  · obtain ⟨found, h⟩ := exists_closing .brace hstop (b.pos + 1)
    refine ⟨found, h, fun kind => ?_⟩
    cases found with
    | none => exact ByteReader.takeBody_of_closing hstop hcurrent hopen kind h
    | some close =>
      intro stop hlt hstop'
      exact ByteReader.takeBody_of_closing (b := { b with stop }) hstop' hcurrent hopen kind (h.anyEnd hlt)
  · obtain ⟨found, h⟩ := exists_closing .paren hstop (b.pos + 1)
    refine ⟨found, h, ?_⟩
    cases found with
    | none => exact ByteReader.takeParam_of_closing hstop hcurrent hopen h
    | some close =>
      obtain ⟨inside, hinside⟩ := ByteReader.textBetween_of_closing hopen h
      refine ⟨inside, hinside, fun stop hlt hstop' => ?_⟩
      have htake := ByteReader.takeParam_of_closing (b := { b with stop }) hstop' hcurrent hopen (h.anyEnd hlt)
      simp only [hinside, pure_bind] at htake
      exact htake
  · obtain ⟨found, h⟩ := exists_closing k hw.stop_le (w.offset + 1)
    exact ⟨found, h, read?_of_closing hw hopen h⟩

/-- A body in which one closing brace is escaped and another closes a nested brace, with more behind it. -/
theorem clauses_close_nested :
    let s := "\x7ba\\\x7d\x7bb\x7d\x7dc"
    let b := ByteReader.ofSource [] s
    b.stop ≤ s.utf8ByteSize ∧ b.current < b.tree.slots.size ∧
      ∀ stop, 7 < stop → stop ≤ 9 → ({ b with stop }).takeBody s .body = pure (some (1, ⟨1, 7⟩),
        ({ b with stop }).behind (ByteReader.bracedLabel s .body 1 7) 8) := by
  intro s b
  have hstop : b.stop ≤ s.utf8ByteSize := Nat.le_refl _
  have hcurrent : b.current < b.tree.slots.size := by decide
  obtain ⟨found, hclosing, htake⟩ := (clauses_close hstop hcurrent).1 (by decide +kernel)
  have hseven : Bracket.brace.Closing s 1 b.stop (some 7) := by decide +kernel
  obtain rfl := hclosing.eq hseven
  exact ⟨hstop, hcurrent, htake .body⟩

/-- In a parameter a backslash does nothing outside of a string literal, and in one a parenthesis does not count. -/
example : Bracket.paren.Closing "(\\(\")\\\")\"))" 1 11 (some 10) := by decide +kernel

end Evomark.Markup
