import Evomark.Decimal.Notation
import Evomark.Decimal.Style
import Evomark.Proofs.Decimal.Shortest
/-!
# Written decimals are read back

The digits that `FloatStyle` writes out, with a point or with a power of ten, are read by
`Decimal.ofNotation?` as the number they were written for (`ofNotation?_unsigned`). So what JSON texts
write for a number tells the number (`FloatStyle.eq_of_write_json`).
-/

namespace Evomark

namespace Decimal

/-- All of these are digits. -/
def AreDigits (cs : List Char) : Prop := ∀ c ∈ cs, isDigit c = true

theorem areDigits_toDigits (n : Nat) : AreDigits (Nat.toDigits 10 n) :=
  fun _ hc => Nat.isDigit_of_mem_toDigits (by decide) (by decide) hc

theorem areDigits_zeros (n : Nat) : AreDigits (List.replicate n '0') := fun c hc => by
  rw [List.eq_of_mem_replicate hc]
  rfl

theorem AreDigits.append {cs ds : List Char} (h : AreDigits cs) (h' : AreDigits ds) :
    AreDigits (cs ++ ds) :=
  List.forall_mem_append.2 ⟨h, h'⟩

/-! ## Digits -/

theorem ofDigits_toDigits (n : Nat) : ofDigits (Nat.toDigits 10 n) = n := by
  refine Eq.trans ?_ (Nat.ofDigitChars_ten_toDigits (n := n))
  unfold ofDigits Nat.ofDigitChars
  congr 1
  funext n c
  rw [Nat.mul_comm]
  rfl

theorem ofDigits_append (cs ds : List Char) :
    ofDigits (cs ++ ds) = ofDigits cs * 10 ^ ds.length + ofDigits ds := by
  have hfrom : ∀ n : Nat, ds.foldl (fun n c => n * 10 + digitValue c) n = n * 10 ^ ds.length + ofDigits ds := by
    induction ds with
    | nil => simp [ofDigits]
    | cons d ds ih =>
      intro n
      unfold ofDigits
      rw [List.foldl_cons, List.foldl_cons, ih, ih (0 * 10 + digitValue d), List.length_cons]
      ring
  unfold ofDigits at hfrom ⊢
  rw [List.foldl_append, hfrom]

theorem ofDigits_zeros (n : Nat) : ofDigits (List.replicate n '0') = 0 := by
  induction n with
  | zero => rfl
  | succ n ih =>
    rw [List.replicate_succ', ofDigits_append, ih]
    rfl

/-! ## Notations -/

/-- No digit comes next. -/
def Undigited (cs : List Char) : Prop := ∀ c ∈ cs.head?, isDigit c = false

theorem takeWhile_digits {cs rest : List Char} (h : AreDigits cs) (hr : Undigited rest) :
    (cs ++ rest).takeWhile isDigit = cs ∧ (cs ++ rest).dropWhile isDigit = rest := by
  rw [List.takeWhile_append_of_pos h, List.dropWhile_append_of_pos h]
  cases rest with
  | nil => simp
  | cons c rest =>
    have hc : isDigit c = false := hr c rfl
    simp [hc]

/-- Digits with a point among them. -/
theorem ofNotation?_point {whole fraction rest : List Char} (hw : AreDigits whole) (hne : whole ≠ [])
    (hf : AreDigits fraction) (hr : Undigited rest) :
    ofNotation? (whole ++ '.' :: (fraction ++ rest)) =
      (exponent? rest).map fun e => ⟨ofDigits (whole ++ fraction), e - fraction.length⟩ := by
  have hmark : Undigited ('.' :: (fraction ++ rest)) := fun c hc => by
    rw [← Option.some.inj hc]
    rfl
  obtain ⟨htake, hdrop⟩ := takeWhile_digits hw hmark
  obtain ⟨htake', hdrop'⟩ := takeWhile_digits hf hr
  have hempty : whole.isEmpty = false := by simp [hne]
  unfold ofNotation?
  simp only [htake, hdrop, htake', hdrop', hempty, Bool.false_and, Bool.false_eq_true, if_false]

/-- Digits without a point. -/
theorem ofNotation?_whole {whole rest : List Char} (hw : AreDigits whole) (hne : whole ≠ []) :
    ofNotation? (whole ++ 'e' :: rest) =
      (exponent? ('e' :: rest)).map fun e => ⟨ofDigits whole, e⟩ := by
  have hmark : Undigited ('e' :: rest) := fun c hc => by
    rw [← Option.some.inj hc]
    rfl
  obtain ⟨htake, hdrop⟩ := takeWhile_digits hw hmark
  have hempty : whole.isEmpty = false := by simp [hne]
  unfold ofNotation?
  simp [htake, hdrop, hempty]

/-- A power of ten with its sign. -/
theorem exponent?_written (power : Int) :
    exponent? ('e' :: (if power < 0 then '-' else '+') :: Nat.toDigits 10 power.natAbs) = some power := by
  have hnatural : natural? (Nat.toDigits 10 power.natAbs) = some power.natAbs := by
    have hall : (Nat.toDigits 10 power.natAbs).all isDigit = true := List.all_eq_true.2 (areDigits_toDigits _)
    rw [natural?, hall, ofDigits_toDigits]
    simp [Nat.toDigits_ne_nil]
  have hmark : exponent? ('e' :: (if power < 0 then '-' else '+') :: Nat.toDigits 10 power.natAbs) =
      signed? natural? ((if power < 0 then '-' else '+') :: Nat.toDigits 10 power.natAbs) := rfl
  have hplus : ∀ cs, signed? natural? ('+' :: cs) = (natural? cs).map Int.ofNat := by
    intro cs
    simp only [signed?]
    cases natural? cs <;> rfl
  have hminus : ∀ cs, signed? natural? ('-' :: cs) = (natural? cs).map fun n : Nat => -(n : Int) := fun _ => rfl
  rw [hmark]
  rcases lt_or_ge power 0 with hneg | hpos
  · rw [if_pos hneg, hminus, hnatural, Option.map_some]
    congr 1
    omega
  · rw [if_neg (not_lt.2 hpos), hplus, hnatural, Option.map_some, Int.ofNat_eq_natCast]
    congr 1
    omega

end Decimal

namespace FloatStyle

open Decimal

variable {style : FloatStyle} {digits : List Char}

theorem areDigits_take_drop (hd : AreDigits digits) (n : Nat) :
    AreDigits (digits.take n) ∧ AreDigits (digits.drop n) :=
  ⟨fun c hc => hd c (List.mem_of_mem_take hc), fun c hc => hd c (List.mem_of_mem_drop hc)⟩

/-- What is written out is read back. -/
theorem ofNotation?_positional (hs : style.showsFraction = true) (hd : AreDigits digits) (hne : digits ≠ [])
    (scale : Int) : ∃ d, ofNotation? (style.positional digits scale) = some d ∧
      d.value = (⟨ofDigits digits, scale⟩ : Decimal).value := by
  have hend : Undigited [] := fun c hc => nomatch hc
  have hlength := List.length_pos_iff.2 hne
  unfold positional
  simp only
  split
  · rename_i hscale
    have h := ofNotation?_point (hd.append (areDigits_zeros scale.toNat)) (by simp [hne])
      (areDigits_zeros 1) hend
    refine ⟨_, h, ?_⟩
    rw [Decimal.value, Decimal.value, ofDigits_append, ofDigits_append, ofDigits_zeros, ofDigits_zeros,
      List.length_replicate, List.length_replicate, zpow_toNat 10 hscale]
    have hone : (10 : ℚ) ^ (0 - ((1 : ℕ) : Int)) = 10⁻¹ := by norm_num
    rw [hone]
    push_cast
    ring
  · rename_i hscale
    split
    · rename_i hinside
      obtain ⟨htake, hdrop⟩ := areDigits_take_drop hd ((digits.length : Int) + scale).toNat
      have hlt : 0 < (digits.take ((digits.length : Int) + scale).toNat).length := by
        rw [List.length_take]
        omega
      have h := ofNotation?_point htake (List.length_pos_iff.1 hlt) hdrop hend
      refine ⟨⟨ofDigits digits, scale⟩, ?_, rfl⟩
      rw [List.append_nil] at h
      rw [h, List.take_append_drop, List.length_drop]
      show some (Decimal.mk _ (0 - _)) = _
      congr 2
      omega
    · rename_i hinside
      have hzero : AreDigits ['0'] := areDigits_zeros 1
      have h := ofNotation?_point hzero (by simp)
        ((areDigits_zeros (-scale - digits.length).toNat).append hd) hend
      refine ⟨⟨ofDigits digits, scale⟩, ?_, rfl⟩
      rw [List.append_nil] at h
      show ofNotation? (['0'] ++ '.' :: (List.replicate (-scale - digits.length).toNat '0' ++ digits)) = _
      rw [h, ← List.append_assoc, show ['0'] = List.replicate 1 '0' from rfl, List.replicate_append_replicate,
        ofDigits_append, ofDigits_zeros, List.length_append, List.length_replicate]
      show some (Decimal.mk _ (0 - _)) = _
      congr 2
      · omega
      · push_cast
        omega

/-- What is written with a power of ten is read back. -/
theorem ofNotation?_scientific (hd : AreDigits digits) (hne : digits ≠ []) (scale : Int) :
    ofNotation? (scientific digits (scale + (digits.length : Int) - 1)) = some ⟨ofDigits digits, scale⟩ := by
  have hmark : ∀ power : Int, Undigited ('e' :: (if power < 0 then '-' else '+') :: Nat.toDigits 10 power.natAbs) :=
    fun power c hc => by
      rw [← Option.some.inj hc]
      rfl
  match digits with
  | [] => exact absurd rfl hne
  | [first] =>
    show ofNotation? ([first] ++ 'e' :: _) = _
    rw [ofNotation?_whole hd hne, exponent?_written, Option.map_some]
    congr 2
    simp
  | first :: second :: more =>
    obtain ⟨hfirst, hmore⟩ := List.forall_mem_cons.1 hd
    show ofNotation? ([first] ++ '.' :: ((second :: more) ++ 'e' :: _)) = _
    have hwhole : AreDigits [first] := by simpa [AreDigits] using hfirst
    rw [ofNotation?_point hwhole (by simp) hmore (hmark _), exponent?_written, Option.map_some]
    congr 2
    simp only [List.length_cons]
    push_cast
    ring

/-- The text of a number without its sign. -/
def unsigned (style : FloatStyle) (x : Binary64) : List Char :=
  if style.leastPositional ≤ x.shortest.leadingPower ∧ x.shortest.leadingPower ≤ style.greatestPositional then
    style.positional x.shortest.text x.shortest.scale
  else scientific x.shortest.text x.shortest.leadingPower

theorem write_eq (style : FloatStyle) (x : Binary64) :
    style.write x = sign x.negative ++ style.unsigned x := rfl

/-- The text of a number tells its shortest decimal. -/
theorem ofNotation?_unsigned (hs : style.showsFraction = true) (x : Binary64) :
    ∃ d, ofNotation? (style.unsigned x) = some d ∧ d.value = x.shortest.value := by
  have hd : AreDigits x.shortest.text := areDigits_toDigits _
  have hne : x.shortest.text ≠ [] := Nat.toDigits_ne_nil
  have hdigits : ofDigits x.shortest.text = x.shortest.digits := ofDigits_toDigits _
  unfold unsigned
  split
  · have h := ofNotation?_positional hs hd hne x.shortest.scale
    rwa [hdigits] at h
  · have h := ofNotation?_scientific hd hne x.shortest.scale
    rw [hdigits] at h
    exact ⟨_, h, rfl⟩

/-- The text of a number without its sign starts with a digit. -/
theorem head_unsigned (style : FloatStyle) (x : Binary64) :
    ∃ c rest, style.unsigned x = c :: rest ∧ isDigit c = true := by
  have hd : AreDigits x.shortest.text := areDigits_toDigits _
  obtain ⟨first, more, htext⟩ :=
    List.exists_cons_of_ne_nil (l := x.shortest.text) Nat.toDigits_ne_nil
  rw [htext] at hd
  have hfirst : isDigit first = true := hd first List.mem_cons_self
  unfold unsigned
  rw [htext]
  split
  · unfold positional
    simp only
    split
    · exact ⟨first, _, rfl, hfirst⟩
    · rename_i hscale
      split
      · rename_i hinside
        obtain ⟨n, hn⟩ : ∃ n, (((first :: more).length : Int) + x.shortest.scale).toNat = n + 1 :=
          Nat.exists_eq_succ_of_ne_zero (by omega)
        rw [hn]
        exact ⟨first, _, rfl, hfirst⟩
      · exact ⟨'0', _, rfl, rfl⟩
  · unfold scientific
    cases more with
    | nil => exact ⟨first, _, rfl, hfirst⟩
    | cons second more => exact ⟨first, _, rfl, hfirst⟩

/-- The text of a number in JSON tells the number. -/
theorem eq_of_write_json {x y : Binary64} (hx : x.InFormat) (hy : y.InFormat)
    (h : json.write x = json.write y) : x = y := by
  obtain ⟨c, rest, hc, hdigit⟩ := head_unsigned json x
  obtain ⟨d, more, hd, hdigit'⟩ := head_unsigned json y
  have hne : c ≠ '-' ∧ d ≠ '-' := by
    constructor <;>
    · rintro rfl
      contradiction
  have hsign : x.negative = y.negative ∧ json.unsigned x = json.unsigned y := by
    rw [write_eq, write_eq] at h
    cases hnx : x.negative <;> cases hny : y.negative <;> rw [hnx, hny] at h
    · exact ⟨rfl, h⟩
    · rw [hc] at h
      exact absurd (List.cons.inj h).1 hne.1
    · rw [hd] at h
      exact absurd (List.cons.inj h).1.symm hne.2
    · exact ⟨rfl, (List.cons.inj h).2⟩
  obtain ⟨dx, hreadx, hvaluex⟩ := ofNotation?_unsigned (rfl : json.showsFraction = true) x
  obtain ⟨dy, hready, hvaluey⟩ := ofNotation?_unsigned (rfl : json.showsFraction = true) y
  rw [hsign.2, hready] at hreadx
  rw [← Option.some.inj hreadx] at hvaluex
  obtain ⟨hm, he⟩ := Binary64.eq_of_value_shortest hx hy (hvaluex.symm.trans hvaluey)
  obtain ⟨negative, m, e⟩ := x
  obtain ⟨negative', m', e'⟩ := y
  obtain rfl : negative = negative' := hsign.1
  obtain rfl : m = m' := hm
  obtain rfl : e = e' := he
  rfl

end FloatStyle

end Evomark
