import Evomark.Proofs.Markup.Progress
/-!
# Windows in a source of bytes

A source is read by bytes: offsets count bytes, and signs are looked for one byte at a time. Not every
offset is the start of a character, and none at the end or behind it has a byte. An `Attempt` at reading
says when it asks for a byte that is not there, for a text whose ends are not those of characters, for a
number below zero, or for a node that is not there (`Misread`).

A window that lies in a source (`Window.LiesIn`) stands between ends of characters, and so does whatever it
leads to. The bytes from its start on are those of its characters (`LiesIn.spells`); all signs are ASCII,
and no byte of another character is (`encode_cases`), so a sign is met exactly at the character it is.
-/

namespace Evomark.Markup

/-- What must not be asked for. -/
inductive Misread
  /-- A byte at or behind the end of the source. -/
  | byte (index : Nat)
  /-- A text that starts behind its end, ends behind the source, or is cut inside a character. -/
  | slice (start stop : Nat)
  /-- A depth or a length below zero. -/
  | difference (a b : Nat)
  /-- A node whose number has no slot. -/
  | node (id : Nat)
  deriving DecidableEq, Repr

/-- A result, a misreading, or nothing at all if reading does not come to an end. -/
abbrev Attempt (α : Type) : Type := ExceptT Misread Option α

/-- The byte at an offset, as the character of its code. -/
def byteAt (s : String) (i : Nat) : Attempt Char :=
  if h : i < s.utf8ByteSize then pure (Char.ofUInt8 (s.getUTF8Byte ⟨i⟩ h)) else throw (.byte i)

/-- The bytes between two offsets, as the characters of their codes. -/
def bytesBetween (s : String) (start stop : Nat) : Attempt (List Char) :=
  if start ≤ stop ∧ stop ≤ s.utf8ByteSize then
    pure ((s.toByteArray.extract start stop).data.toList.map Char.ofUInt8)
  else throw (.slice start stop)

/-- The text between two offsets, which must be those of characters. -/
def textBetween (s : String) (start stop : Nat) : Attempt String :=
  if h : start ≤ stop ∧ String.Pos.Raw.IsValid s ⟨start⟩ ∧ String.Pos.Raw.IsValid s ⟨stop⟩ then
    pure (String.extract (s.pos ⟨start⟩ h.2.1) (s.pos ⟨stop⟩ h.2.2))
  else throw (.slice start stop)

/-- A depth or a length that is left of another. -/
def minus (a b : Nat) : Attempt Nat := if b ≤ a then pure (a - b) else throw (.difference a b)

/-- The number is that of a node. -/
def nodeAt (t : Tree) (id : Nat) : Attempt Unit := if id < t.slots.size then pure () else throw (.node id)

theorem minus_eq {a b : Nat} (h : b ≤ a) : minus a b = pure (a - b) := if_pos h

theorem nodeAt_eq {t : Tree} {id : Nat} (h : id < t.slots.size) : nodeAt t id = pure () := if_pos h

/-! ## Characters as bytes -/

/-- The bytes of some characters. -/
def encode (cs : List Char) : List UInt8 := cs.flatMap String.utf8EncodeChar

theorem encode_cons (c : Char) (cs : List Char) : encode (c :: cs) = String.utf8EncodeChar c ++ encode cs := rfl

theorem encode_append (cs ds : List Char) : encode (cs ++ ds) = encode cs ++ encode ds :=
  List.flatMap_append

theorem length_encode (cs : List Char) : (encode cs).length = Text.byteLength cs := by
  induction cs with
  | nil => rfl
  | cons c rest ih =>
    rw [encode_cons, List.length_append, String.length_utf8EncodeChar, ih, Text.byteLength_cons]

/-- An ASCII character is its only byte. The bytes of any other character are not ASCII. -/
theorem encode_cases (c : Char) :
    (c.toNat < 128 ∧ ∃ b : UInt8, String.utf8EncodeChar c = [b] ∧ Char.ofUInt8 b = c) ∨
      (128 ≤ c.toNat ∧ ∀ b ∈ String.utf8EncodeChar c, 128 ≤ b.toNat) := by
  by_cases h : c.toNat < 128
  · refine .inl ⟨h, UInt8.ofNat c.toNat, ?_, ?_⟩
    · have hle : c.val.toNat ≤ 127 := Nat.le_of_lt_succ h
      rw [String.utf8EncodeChar]
      simp only [hle, if_true]
      rfl
    · refine Char.ext (UInt32.toNat_inj.1 ?_)
      show (UInt8.ofNat c.toNat).toUInt32.toNat = c.toNat
      rw [UInt8.toNat_toUInt32, UInt8.toNat_ofNat']
      exact Nat.mod_eq_of_lt (Nat.lt_trans h (by decide))
  · refine .inr ⟨Nat.le_of_not_lt h, ?_⟩
    have hnle : ¬c.val.toNat ≤ 127 := fun hle => h (Nat.lt_succ_of_le hle)
    intro b hb
    rw [String.utf8EncodeChar] at hb
    simp only [hnle, if_false] at hb
    split at hb
    · simp only [List.mem_cons, List.not_mem_nil, or_false] at hb
      rcases hb with rfl | rfl <;> simp only [UInt8.toNat_ofNat'] <;> omega
    · split at hb
      · simp only [List.mem_cons, List.not_mem_nil, or_false] at hb
        rcases hb with rfl | rfl | rfl <;> simp only [UInt8.toNat_ofNat'] <;> omega
      · simp only [List.mem_cons, List.not_mem_nil, or_false] at hb
        rcases hb with rfl | rfl | rfl | rfl <;> simp only [UInt8.toNat_ofNat'] <;> omega

theorem utf8Size_of_ascii {c : Char} (h : c.toNat < 128) : c.utf8Size = 1 := by
  rcases encode_cases c with ⟨-, b, hsingle, -⟩ | ⟨hc, -⟩
  · rw [← String.length_utf8EncodeChar c, hsingle]
    rfl
  · omega

/-- The length of signs in bytes. -/
theorem byteLength_of_ascii {cs : List Char} (h : ∀ c ∈ cs, c.toNat < 128) : Text.byteLength cs = cs.length := by
  induction cs with
  | nil => rfl
  | cons c rest ih =>
    obtain ⟨hc, hrest⟩ := List.forall_mem_cons.1 h
    rw [Text.byteLength_cons, utf8Size_of_ascii hc, ih hrest, List.length_cons, Nat.add_comm]

theorem length_utf8EncodeChar_pos (c : Char) : 0 < (String.utf8EncodeChar c).length := by
  rw [String.length_utf8EncodeChar]
  exact c.utf8Size_pos

theorem toByteArray_toList (s : String) : s.toByteArray.data.toList = encode s.toList := by
  conv_lhs => rw [← String.ofList_toList (s := s)]
  rw [String.toByteArray_ofList, List.utf8Encode, List.data_toByteArray]
  rfl

theorem utf8ByteSize_eq (s : String) : s.utf8ByteSize = Text.byteLength s.toList := by
  rw [← length_encode, ← toByteArray_toList]
  rfl

/-! ## What stands where -/

/-- From an offset on the source has these bytes. -/
def Spells (s : String) (i : Nat) (bs : List UInt8) : Prop := bs <+: (encode s.toList).drop i

theorem Spells.cons {s : String} {i : Nat} {b : UInt8} {bs : List UInt8} (h : Spells s i (b :: bs)) :
    byteAt s i = pure (Char.ofUInt8 b) ∧ Spells s (i + 1) bs := by
  obtain ⟨more, hmore⟩ := h
  rw [List.cons_append] at hmore
  refine ⟨?_, more, ?_⟩
  · have hget : s.toByteArray.data.toList[i]? = some b := by
      rw [toByteArray_toList, ← List.head?_drop, ← hmore]
      rfl
    obtain ⟨hi, hb⟩ := List.getElem?_eq_some_iff.1 hget
    have hlt : i < s.utf8ByteSize := hi
    rw [byteAt, dif_pos hlt]
    exact congrArg (fun b => (pure (Char.ofUInt8 b) : Attempt Char)) hb
  · rw [← List.tail_drop, ← hmore]
    rfl

theorem Spells.append {s : String} {i : Nat} {bs cs : List UInt8} (h : Spells s i (bs ++ cs)) :
    Spells s (i + bs.length) cs := by
  obtain ⟨more, hmore⟩ := h
  refine ⟨more, ?_⟩
  rw [← List.drop_drop, ← hmore, List.append_assoc, List.drop_left]

end Evomark.Markup

namespace Evomark.Window

open Markup

/-- The window is a part of the source: it starts where it says, with the characters that stand there. -/
def LiesIn (w : Window) (s : String) : Prop :=
  ∃ before after, s.toList = before ++ w.chars ++ after ∧ w.offset = Text.byteLength before

theorem liesIn_ofSource (s : String) : (ofSource s).LiesIn s := ⟨[], [], by simp [ofSource], rfl⟩

namespace LiesIn

variable {w v : Window} {s : String}

theorem leadsTo (h : w.LiesIn s) (hv : w.LeadsTo v) : v.LiesIn s := by
  obtain ⟨before, after, hs, hoffset⟩ := h
  obtain ⟨taken, hchars, hstart⟩ := hv
  refine ⟨before ++ taken, after, ?_, ?_⟩
  · rw [hs, hchars]
    simp only [List.append_assoc]
  · rw [hstart, hoffset, Text.byteLength_append]

/-- What has been taken of a window lies in front of the rest. -/
theorem taken {front rest : List Char} (h : w.LiesIn s) (hw : w.chars = front ++ rest) :
    (Window.mk w.offset front).LiesIn s := by
  obtain ⟨before, after, hs, hoffset⟩ := h
  refine ⟨before, rest ++ after, ?_, hoffset⟩
  rw [hs, hw]
  simp only [List.append_assoc]

/-- What stands between others lies there too. -/
theorem part (h : w.LiesIn s) (front back : List Char) {inner : List Char}
    (hw : w.chars = front ++ (inner ++ back)) :
    (Window.mk (w.offset + Text.byteLength front) inner).LiesIn s :=
  (h.leadsTo (leadsTo_after hw)).taken rfl

theorem spells (h : w.LiesIn s) : Spells s w.offset (encode w.chars) := by
  obtain ⟨before, after, hs, hoffset⟩ := h
  refine ⟨encode after, ?_⟩
  rw [hs, encode_append, encode_append, hoffset, ← length_encode, List.append_assoc, List.drop_left]

theorem stop_le (h : w.LiesIn s) : w.stop ≤ s.utf8ByteSize := by
  obtain ⟨before, after, hs, hoffset⟩ := h
  rw [utf8ByteSize_eq, hs, Text.byteLength_append, Text.byteLength_append, stop, hoffset]
  exact Nat.le_add_right _ _

theorem offset_le_stop (w : Window) : w.offset ≤ w.stop := Nat.le_add_right _ _

theorem extract_toByteArray (h : w.LiesIn s) :
    (s.toByteArray.extract w.offset w.stop).data.toList = encode w.chars := by
  obtain ⟨before, after, hs, hoffset⟩ := h
  have hsize : w.stop - w.offset = (encode w.chars).length := by
    rw [stop, length_encode, Nat.add_sub_cancel_left]
  rw [ByteArray.data_extract, Array.toList_extract, toByteArray_toList, List.extract_eq_take_drop, hsize, hs,
    encode_append, encode_append, hoffset, ← length_encode, List.append_assoc, List.drop_left, List.take_left]

theorem isValid_offset (h : w.LiesIn s) : String.Pos.Raw.IsValid s ⟨w.offset⟩ := by
  obtain ⟨before, after, hs, hoffset⟩ := h
  refine String.Pos.Raw.isValid_iff_exists_append.2 ⟨String.ofList before, String.ofList (w.chars ++ after), ?_, ?_⟩
  · rw [← String.ofList_append, ← List.append_assoc, ← hs, String.ofList_toList]
  · rw [hoffset, String.rawEndPos, utf8ByteSize_eq, String.toList_ofList]

/-- A window in the source can be cut out of it. -/
theorem textBetween (h : w.LiesIn s) :
    Markup.textBetween s w.offset w.stop = pure (String.ofList w.chars) := by
  have hstop : String.Pos.Raw.IsValid s ⟨w.stop⟩ :=
    (h.leadsTo (v := ⟨w.stop, []⟩) ⟨w.chars, (List.append_nil _).symm, rfl⟩).isValid_offset
  rw [Markup.textBetween, dif_pos ⟨offset_le_stop w, h.isValid_offset, hstop⟩]
  refine congrArg pure (String.toByteArray_inj.1 (ByteArray.ext (Array.toList_inj.1 ?_)))
  rw [String.toByteArray_extract, String.offset_pos, String.offset_pos, h.extract_toByteArray,
    toByteArray_toList, String.toList_ofList]

theorem bytesBetween (h : w.LiesIn s) :
    Markup.bytesBetween s w.offset w.stop = pure ((encode w.chars).map Char.ofUInt8) := by
  rw [Markup.bytesBetween, if_pos ⟨offset_le_stop w, h.stop_le⟩, h.extract_toByteArray]

end LiesIn

end Evomark.Window
