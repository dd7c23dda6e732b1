import Mathlib.Algebra.Order.Field.Power
import Mathlib.Algebra.Order.Field.Rat
import Mathlib.Tactic.Linarith
import Mathlib.Tactic.LinearCombination
import Mathlib.Tactic.NormNum
import Mathlib.Tactic.Positivity
import Mathlib.Tactic.Ring
import Mathlib.Tactic.FieldSimp
import Evomark.Decimal.Shortest
/-!
# What a shortest decimal tells

A number of the format covers the values that round to it (`Covers`), and two numbers of different size
cover no value in common (`eq_of_covers`). The search for the fewest digits ends with a decimal that the
number covers (`covers_shortest`): what a grid gives is covered (`covers_onGrid`), and the grid of
seventeen digits is fine enough to give something (`isSome_onGrid`). So the shortest decimal tells the
size of the number (`eq_of_value_shortest`).
-/

namespace Evomark

theorem zpow_mul_natAbs {b : ℚ} (hb : b ≠ 0) {n : Int} (hn : n < 0) : b ^ n * b ^ n.natAbs = 1 := by
  rw [← zpow_natCast, ← zpow_add₀ hb, show n + (n.natAbs : Int) = 0 by omega, zpow_zero]

theorem zpow_toNat (b : ℚ) {n : Int} (hn : 0 ≤ n) : b ^ n = b ^ n.toNat := by
  rw [← zpow_natCast, Int.toNat_of_nonneg hn]

namespace Decimal

/-- The number a decimal stands for. -/
def value (d : Decimal) : ℚ := d.digits * 10 ^ d.scale

theorem stripZeros_eq (fuel n : Nat) : n = (stripZeros fuel n).1 * 10 ^ (stripZeros fuel n).2 := by
  induction fuel generalizing n with
  | zero => simp [stripZeros]
  | succ fuel ih =>
    rw [stripZeros]
    split
    · rename_i h
      simp only [Bool.and_eq_true, bne_iff_ne, beq_iff_eq] at h
      have hn : n = n / 10 * 10 := by omega
      calc n = n / 10 * 10 := hn
        _ = (stripZeros fuel (n / 10)).1 * 10 ^ (stripZeros fuel (n / 10)).2 * 10 :=
          congrArg (· * 10) (ih (n / 10))
        _ = (stripZeros fuel (n / 10)).1 * 10 ^ ((stripZeros fuel (n / 10)).2 + 1) := by
          rw [Nat.pow_succ, Nat.mul_assoc]
    · simp

theorem value_normalize (d : Decimal) : d.normalize.value = d.value := by
  have h : (d.digits : ℚ) = (stripZeros 20 d.digits).1 * 10 ^ (stripZeros 20 d.digits).2 := by
    exact_mod_cast stripZeros_eq 20 d.digits
  show ((stripZeros 20 d.digits).1 : ℚ) * 10 ^ (d.scale + ((stripZeros 20 d.digits).2 : Int)) =
    d.digits * 10 ^ d.scale
  rw [h, zpow_add₀ (by norm_num), zpow_natCast]
  ring

end Decimal

namespace Binary64

/-! ## The values that round to a number -/

/-- A number of the format: 53 binary digits, or fewer at the least exponent. -/
def InFormat (x : Binary64) : Prop :=
  (2 ^ 52 ≤ x.significand ∧ x.significand < 2 ^ 53 ∧ minExponent ≤ x.exponent ∧ x.exponent ≤ maxExponent) ∨
    (x.significand < 2 ^ 52 ∧ x.exponent = minExponent)

instance (x : Binary64) : Decidable x.InFormat :=
  inferInstanceAs (Decidable ((2 ^ 52 ≤ x.significand ∧ x.significand < 2 ^ 53 ∧ minExponent ≤ x.exponent ∧
    x.exponent ≤ maxExponent) ∨ (x.significand < 2 ^ 52 ∧ x.exponent = minExponent)))

/-- How far a number reaches downwards, in quarters of its last place. -/
def reach (x : Binary64) : Nat := if x.significand = 1 <<< 52 ∧ x.exponent ≠ minExponent then 1 else 2

/-- The value `v` lies between `below` quarters of `2 ^ e` under `m * 2 ^ e` and two quarters over it,
and not at an end if `m` is odd. -/
structure Covers (m : Nat) (e : Int) (below : Nat) (v : ℚ) : Prop where
  lower : (4 * m - below) * 2 ^ e ≤ 4 * v
  upper : 4 * v ≤ (4 * m + 2) * 2 ^ e
  inner : m % 2 = 1 → (4 * m - below) * 2 ^ e < 4 * v ∧ 4 * v < (4 * m + 2) * 2 ^ e

theorem InFormat.lt {x : Binary64} (h : x.InFormat) : x.significand < 2 ^ 53 := by
  rcases h with h | h <;> omega

theorem InFormat.minExponent_le {x : Binary64} (h : x.InFormat) : minExponent ≤ x.exponent := by
  rcases h with h | h <;> omega

/-- Above the least exponent there are 53 digits. -/
theorem InFormat.le {x : Binary64} (h : x.InFormat) (he : minExponent < x.exponent) :
    2 ^ 52 ≤ x.significand := by
  rcases h with h | h <;> omega

/-- What a number covers ends before a multiple `k` of its quarters begins, if `k` is beyond the next
significand. -/
theorem Covers.lt_of_le {m : Nat} {e : Int} {below k : Nat} {v : ℚ} (h : Covers m e below v)
    (hk : 4 * m + 2 ≤ k) (hodd : m % 2 = 0 → 4 * m + 2 < k) : 4 * v < k * 2 ^ e := by
  have hu : (0 : ℚ) < 2 ^ e := zpow_pos (by norm_num) e
  rcases Nat.mod_two_eq_zero_or_one m with heven | hone
  · have hlt : ((4 * m + 2 : ℕ) : ℚ) < k := by exact_mod_cast hodd heven
    push_cast at hlt
    exact lt_of_le_of_lt h.upper (mul_lt_mul_of_pos_right hlt hu)
  · have hle : ((4 * m + 2 : ℕ) : ℚ) ≤ k := by exact_mod_cast hk
    push_cast at hle
    exact lt_of_lt_of_le (h.inner hone).2 (mul_le_mul_of_nonneg_right hle hu.le)

theorem reach_le (x : Binary64) : x.reach ≤ 2 := by
  unfold reach
  split <;> omega

/-- Below a number of 53 digits that is not at the least exponent, the quarters of the exponent before
go up to `2 ^ 55 - 2`. -/
theorem InFormat.le_reach {x : Binary64} (h : x.InFormat) (he : minExponent < x.exponent) :
    2 ^ 54 - 1 ≤ 4 * x.significand - x.reach := by
  have hm := h.le he
  unfold reach
  split
  · omega
  · rename_i hne
    have : x.significand ≠ 1 <<< 52 := fun hm => hne ⟨hm, by omega⟩
    rw [Nat.shiftLeft_eq] at this
    omega

/-- Numbers do not cover a value in common. -/
theorem not_covers_of_lt {x y : Binary64} (hx : x.InFormat) (hy : y.InFormat)
    (hlt : x.exponent < y.exponent ∨ x.exponent = y.exponent ∧ x.significand < y.significand) {v : ℚ}
    (h : Covers x.significand x.exponent x.reach v) : ¬ Covers y.significand y.exponent y.reach v := by
  intro h'
  rcases hlt with he | ⟨he, hm⟩
  · have hmin : minExponent < y.exponent := lt_of_le_of_lt hx.minExponent_le he
    have hu : (2 : ℚ) * 2 ^ x.exponent ≤ 2 ^ y.exponent := by
      rw [← zpow_one_add₀ (by norm_num)]
      exact zpow_le_zpow_right₀ (by norm_num) (by omega)
    have hbelow : ((2 ^ 54 - 1 : ℕ) : ℚ) ≤ 4 * y.significand - y.reach := by
      have hle : 2 ^ 54 - 1 + y.reach ≤ 4 * y.significand := by
        have := hy.le_reach hmin
        have := y.reach_le
        omega
      have : ((2 ^ 54 - 1 + y.reach : ℕ) : ℚ) ≤ (4 * y.significand : ℕ) := by exact_mod_cast hle
      push_cast at this ⊢
      linarith
    have hpos : (0 : ℚ) < 2 ^ y.exponent := zpow_pos (by norm_num) _
    have hv : 4 * v < ((2 ^ 55 - 2 : ℕ) : ℚ) * 2 ^ x.exponent :=
      h.lt_of_le (by have := hx.lt; omega) (by have := hx.lt; omega)
    have : ((2 ^ 55 - 2 : ℕ) : ℚ) * 2 ^ x.exponent ≤ 4 * v :=
      calc ((2 ^ 55 - 2 : ℕ) : ℚ) * 2 ^ x.exponent = ((2 ^ 54 - 1 : ℕ) : ℚ) * (2 * 2 ^ x.exponent) := by
            norm_num
            ring
        _ ≤ ((2 ^ 54 - 1 : ℕ) : ℚ) * 2 ^ y.exponent := mul_le_mul_of_nonneg_left hu (Nat.cast_nonneg _)
        _ ≤ (4 * y.significand - y.reach) * 2 ^ y.exponent := mul_le_mul_of_nonneg_right hbelow hpos.le
        _ ≤ 4 * v := h'.lower
    exact absurd hv (not_lt.2 this)
  · have hpos : (0 : ℚ) < 2 ^ x.exponent := zpow_pos (by norm_num) _
    have hbelow : ((4 * y.significand - 2 : ℕ) : ℚ) ≤ 4 * y.significand - y.reach := by
      have hle : 4 * y.significand - 2 + y.reach ≤ 4 * y.significand := by
        have := y.reach_le
        omega
      have : ((4 * y.significand - 2 + y.reach : ℕ) : ℚ) ≤ (4 * y.significand : ℕ) := by exact_mod_cast hle
      rw [Nat.cast_add, Nat.cast_mul] at this
      push_cast at this ⊢
      linarith
    have hlower : ((4 * y.significand - 2 : ℕ) : ℚ) * 2 ^ x.exponent ≤
        (4 * y.significand - y.reach) * 2 ^ y.exponent :=
      he ▸ mul_le_mul_of_nonneg_right hbelow hpos.le
    by_cases hnext : x.significand % 2 = 0 ∧ y.significand = x.significand + 1
    · -- The end between two neighbours belongs to the even one.
      have hlt := lt_of_le_of_lt hlower (h'.inner (by omega)).1
      have hk : ((4 * y.significand - 2 : ℕ) : ℚ) = 4 * x.significand + 2 := by
        rw [hnext.2]
        norm_cast
      rw [hk] at hlt
      exact absurd hlt (not_lt.2 h.upper)
    · have hlt := h.lt_of_le (k := 4 * y.significand - 2) (by omega) (by omega)
      exact absurd hlt (not_lt.2 (hlower.trans h'.lower))

/-- Numbers that cover a value in common have the same size. -/
theorem eq_of_covers {x y : Binary64} (hx : x.InFormat) (hy : y.InFormat) {v : ℚ}
    (h : Covers x.significand x.exponent x.reach v) (h' : Covers y.significand y.exponent y.reach v) :
    x.significand = y.significand ∧ x.exponent = y.exponent := by
  rcases lt_trichotomy x.exponent y.exponent with he | he | he
  · exact absurd h' (not_covers_of_lt hx hy (.inl he) h)
  · rcases lt_trichotomy x.significand y.significand with hm | hm | hm
    · exact absurd h' (not_covers_of_lt hx hy (.inr ⟨he, hm⟩) h)
    · exact ⟨hm, he⟩
    · exact absurd h (not_covers_of_lt hy hx (.inr ⟨he.symm, hm⟩) h')
  · exact absurd h (not_covers_of_lt hy hx (.inl he) h')

/-! ## A grid -/

/-- Quarters of `2 ^ e` have one denominator. -/
theorem exists_quarters (e : Int) : ∃ d : Nat, 0 < d ∧ ∀ k,
    (quarters e k).2 = d ∧ ((quarters e k).1 : ℚ) * 4 = k * 2 ^ e * d := by
  rcases lt_or_ge e 0 with he | he
  · refine ⟨4 <<< e.natAbs, by rw [Nat.shiftLeft_eq]; positivity, fun k => ⟨by simp [quarters, he], ?_⟩⟩
    simp only [quarters, if_pos he, Nat.shiftLeft_eq]
    push_cast
    linear_combination -(4 * (k : ℚ)) * zpow_mul_natAbs (b := 2) (by norm_num) he
  · refine ⟨4, by norm_num, fun k => ⟨by simp [quarters, not_lt.2 he], ?_⟩⟩
    simp only [quarters, if_neg (not_lt.2 he), Nat.shiftLeft_eq, zpow_toNat 2 he]
    push_cast
    ring

/-- In units of `10 ^ scale` they still have. -/
theorem exists_inUnits (e scale : Int) : ∃ d : Nat, 0 < d ∧ ∀ k,
    (inUnits (quarters e k).1 (quarters e k).2 scale).2 = d ∧
      ((inUnits (quarters e k).1 (quarters e k).2 scale).1 : ℚ) * (4 * 10 ^ scale) = k * 2 ^ e * d := by
  obtain ⟨d, hd, hq⟩ := exists_quarters e
  rcases lt_or_ge scale 0 with hs | hs
  · refine ⟨d, hd, fun k => ⟨by simp [inUnits, hs, (hq k).1], ?_⟩⟩
    simp only [inUnits, if_pos hs, Nat.pow_eq]
    push_cast
    linear_combination (hq k).2 +
      ((quarters e k).1 : ℚ) * 4 * zpow_mul_natAbs (b := 10) (by norm_num) hs
  · refine ⟨d * 10 ^ scale.toNat, by positivity, fun k => ⟨by simp [inUnits, not_lt.2 hs, (hq k).1], ?_⟩⟩
    simp only [inUnits, if_neg (not_lt.2 hs), Nat.pow_eq, zpow_toNat 10 hs]
    push_cast
    linear_combination (10 : ℚ) ^ scale.toNat * (hq k).2

/-- The neighbours of a number on a grid: `q` units of `10 ^ scale` and `r` of `d` parts of a unit are
the number, `b` parts are `below` quarters of its last place and `t` parts are two. -/
structure Neighbours (m : Nat) (e : Int) (below : Nat) (scale : Int) (q r b t d : Nat) : Prop where
  pos : 0 < d
  lt : r < d
  number : (4 * (q * d + r) : ℚ) * 10 ^ scale = 4 * m * 2 ^ e * d
  down : (4 * b : ℚ) * 10 ^ scale = below * 2 ^ e * d
  up : (4 * t : ℚ) * 10 ^ scale = 2 * 2 ^ e * d

/-- A neighbour that is near enough. -/
def Fits (m distance bound : Nat) : Prop := distance < bound ∨ distance = bound ∧ m % 2 = 0

instance (m distance bound : Nat) : Decidable (Fits m distance bound) :=
  inferInstanceAs (Decidable (distance < bound ∨ distance = bound ∧ m % 2 = 0))

/-- What a grid gives is one of the neighbours, if one is near enough. -/
theorem onGrid_cases (m : Nat) (e : Int) (below : Nat) (scale : Int) :
    ∃ q r b t d, Neighbours m e below scale q r b t d ∧
      ((onGrid m e below scale = none ∧ ¬ (q ≠ 0 ∧ Fits m r b) ∧ ¬ Fits m (d - r) t) ∨
        (onGrid m e below scale = some ⟨q, scale⟩ ∧ q ≠ 0 ∧ Fits m r b) ∨
        (onGrid m e below scale = some ⟨q + 1, scale⟩ ∧ Fits m (d - r) t)) := by
  obtain ⟨d, hd, hscaled⟩ := exists_inUnits e scale
  have hpart : ∀ k, (4 * (inUnits (quarters e k).1 (quarters e k).2 scale).1 : ℚ) * 10 ^ scale =
      k * 2 ^ e * d := by
    intro k
    linear_combination (hscaled k).2
  refine ⟨(inUnits (quarters e (4 * m)).1 (quarters e (4 * m)).2 scale).1 / d,
    (inUnits (quarters e (4 * m)).1 (quarters e (4 * m)).2 scale).1 % d,
    (inUnits (quarters e below).1 (quarters e below).2 scale).1,
    (inUnits (quarters e 2).1 (quarters e 2).2 scale).1, d, ⟨hd, Nat.mod_lt _ hd, ?_, hpart below, ?_⟩, ?_⟩
  · have h := hpart (4 * m)
    have hdiv : (((inUnits (quarters e (4 * m)).1 (quarters e (4 * m)).2 scale).1 / d : ℕ) : ℚ) * d +
        ((inUnits (quarters e (4 * m)).1 (quarters e (4 * m)).2 scale).1 % d : ℕ) =
        (inUnits (quarters e (4 * m)).1 (quarters e (4 * m)).2 scale).1 := by
      exact_mod_cast Nat.div_add_mod' _ _
    rw [hdiv, h]
    push_cast
    ring
  · have h := hpart 2
    exact_mod_cast h
  · unfold onGrid
    simp only [(hscaled (4 * m)).1]
    generalize (inUnits (quarters e (4 * m)).1 (quarters e (4 * m)).2 scale).1 / d = q
    generalize (inUnits (quarters e (4 * m)).1 (quarters e (4 * m)).2 scale).1 % d = r
    generalize (inUnits (quarters e below).1 (quarters e below).2 scale).1 = b
    generalize (inUnits (quarters e 2).1 (quarters e 2).2 scale).1 = t
    have hlower : (q != 0 && (decide (r < b) || r == b && m % 2 == 0)) = decide (q ≠ 0 ∧ Fits m r b) := by
      rw [Bool.eq_iff_iff, decide_eq_true_iff]
      simp [Fits]
    have hupper : (decide (d - r < t) || d - r == t && m % 2 == 0) = decide (Fits m (d - r) t) := by
      rw [Bool.eq_iff_iff, decide_eq_true_iff]
      simp [Fits]
    rw [hlower, hupper]
    simp only [Bool.and_eq_true, decide_eq_true_eq]
    by_cases hl : q ≠ 0 ∧ Fits m r b
    · by_cases hu : Fits m (d - r) t
      · rw [if_pos ⟨hl, hu⟩]
        split
        · exact .inr (.inl ⟨rfl, hl⟩)
        · exact .inr (.inr ⟨rfl, hu⟩)
      · rw [if_neg fun h => hu h.2, if_pos hl]
        exact .inr (.inl ⟨rfl, hl⟩)
    · rw [if_neg fun h => hl h.1, if_neg hl]
      split
      · rename_i hu
        exact .inr (.inr ⟨rfl, hu⟩)
      · rename_i hu
        exact .inl ⟨rfl, hl, hu⟩

/-- Near enough is at most as far as the bound, and nearer if the number is odd. -/
theorem Fits.le {m distance bound : Nat} (h : Fits m distance bound) :
    distance ≤ bound ∧ (m % 2 = 1 → distance < bound) := by
  rcases h with h | ⟨rfl, hm⟩
  · exact ⟨h.le, fun _ => h⟩
  · exact ⟨le_rfl, by omega⟩

section

variable {m : Nat} {e : Int} {below : Nat} {scale : Int} {q r b t d : Nat}

theorem Neighbours.pos_up (h : Neighbours m e below scale q r b t d) : 0 < t := by
  have hplace : (0 : ℚ) < 2 ^ e := zpow_pos (by norm_num) e
  have hd : (0 : ℚ) < d := Nat.cast_pos.2 h.pos
  refine Nat.pos_of_ne_zero fun ht => ?_
  have hup := h.up
  rw [ht, Nat.cast_zero, mul_zero, zero_mul] at hup
  exact absurd hup (mul_pos (mul_pos two_pos hplace) hd).ne

/-- A multiple of the unit that is `s` parts of it over the number is covered, if it is not further down
than `b` parts and not further up than `t`. -/
theorem Neighbours.covers (h : Neighbours m e below scale q r b t d) {n : Nat} {s : Int}
    (hn : (n * d : Int) = q * d + r + s) (hb : -(b : Int) ≤ s) (ht : s ≤ t)
    (hodd : m % 2 = 1 → -(b : Int) < s ∧ s < t) : Covers m e below (n * 10 ^ scale) := by
  have hunit : (0 : ℚ) < 10 ^ scale := zpow_pos (by norm_num) scale
  have hd : (0 : ℚ) < d := Nat.cast_pos.2 h.pos
  have hnumber : (n : ℚ) * d = q * d + r + s := by exact_mod_cast hn
  have hvalue : 4 * (n * 10 ^ scale) * (d : ℚ) = 4 * m * 2 ^ e * d + 4 * s * 10 ^ scale := by
    linear_combination h.number + 4 * (10 : ℚ) ^ scale * hnumber
  have hdown : (4 * m - below) * 2 ^ e * (d : ℚ) = 4 * m * 2 ^ e * d + 4 * -b * 10 ^ scale := by
    linear_combination h.down
  have hup : (4 * m + 2) * 2 ^ e * (d : ℚ) = 4 * m * 2 ^ e * d + 4 * t * 10 ^ scale := by
    linear_combination -h.up
  have hle : ∀ {a c : ℚ}, a ≤ c → 4 * a * (10 : ℚ) ^ scale ≤ 4 * c * 10 ^ scale := fun hac =>
    mul_le_mul_of_nonneg_right (by linarith) hunit.le
  have hlt : ∀ {a c : ℚ}, a < c → 4 * a * (10 : ℚ) ^ scale < 4 * c * 10 ^ scale := fun hac =>
    mul_lt_mul_of_pos_right (by linarith) hunit
  have hb' : (-b : ℚ) ≤ s := by exact_mod_cast hb
  have ht' : (s : ℚ) ≤ t := by exact_mod_cast ht
  refine ⟨le_of_mul_le_mul_right ?_ hd, le_of_mul_le_mul_right ?_ hd, fun hm =>
    ⟨lt_of_mul_lt_mul_right ?_ hd.le, lt_of_mul_lt_mul_right ?_ hd.le⟩⟩
  · rw [hvalue, hdown]
    linarith [hle hb']
  · rw [hvalue, hup]
    linarith [hle ht']
  · have hb'' : (-b : ℚ) < s := by exact_mod_cast (hodd hm).1
    rw [hvalue, hdown]
    linarith [hlt hb'']
  · have ht'' : (s : ℚ) < t := by exact_mod_cast (hodd hm).2
    rw [hvalue, hup]
    linarith [hlt ht'']

end

/-- What a grid gives is covered, and not zero. -/
theorem covers_onGrid {m : Nat} {e : Int} {below : Nat} {scale : Int} {x : Decimal}
    (h : onGrid m e below scale = some x) : Covers m e below x.value ∧ 0 < x.value := by
  have hunit : (0 : ℚ) < 10 ^ scale := zpow_pos (by norm_num) scale
  obtain ⟨q, r, b, t, d, hn, ⟨hnone, -⟩ | ⟨hsome, hq, hfits⟩ | ⟨hsome, hfits⟩⟩ := onGrid_cases m e below scale
  · rw [hnone] at h
    cases h
  · obtain rfl := Option.some.inj (hsome.symm.trans h)
    have hr := hfits.le
    have ht := hn.pos_up
    refine ⟨hn.covers (n := q) (s := -r) (by ring) (by omega) (by omega) fun hm => ?_, ?_⟩
    · have := hr.2 hm
      omega
    · exact mul_pos (Nat.cast_pos.2 (Nat.pos_of_ne_zero hq)) hunit
  · obtain rfl := Option.some.inj (hsome.symm.trans h)
    have hr := hfits.le
    have hlt := hn.lt
    refine ⟨hn.covers (n := q + 1) (s := d - r) (by push_cast; ring) (by omega) (by omega) fun hm => ?_, ?_⟩
    · have := hr.2 hm
      omega
    · exact mul_pos (Nat.cast_pos.2 (Nat.succ_pos q)) hunit

/-- A grid of seventeen digits has a decimal for every number. -/
theorem isSome_onGrid {m : Nat} {e : Int} {below : Nat} {scale : Int}
    (hm : below = 2 ∧ m < 2 ^ 53 ∨ below = 1 ∧ m = 2 ^ 52)
    (h : (10 : ℚ) ^ (scale + 16) ≤ m * 2 ^ e) : (onGrid m e below scale).isSome = true := by
  have hunit : (0 : ℚ) < 10 ^ scale := zpow_pos (by norm_num) scale
  have hplace : (0 : ℚ) < 2 ^ e := zpow_pos (by norm_num) e
  obtain ⟨q, r, b, t, d, hn, ⟨-, hlower, hupper⟩ | ⟨hsome, -⟩ | ⟨hsome, -⟩⟩ := onGrid_cases m e below scale
  · exfalso
    have hd : (0 : ℚ) < d := Nat.cast_pos.2 hn.pos
    have h16 : (10 : ℚ) ^ scale * 10 ^ 16 ≤ m * 2 ^ e := by
      rwa [zpow_add₀ (by norm_num)] at h
    have hq : q ≠ 0 := by
      rintro rfl
      have hr : (r : ℚ) * 10 ^ scale < d * 10 ^ scale :=
        mul_lt_mul_of_pos_right (by exact_mod_cast hn.lt) hunit
      have hnumber := hn.number
      rw [Nat.cast_zero, zero_mul, zero_add] at hnumber
      have : (10 : ℚ) ^ scale * 10 ^ 16 * d ≤ m * 2 ^ e * d := mul_le_mul_of_nonneg_right h16 hd.le
      linarith [mul_pos hunit hd]
    have hb : b ≤ r := not_lt.1 fun hlt => hlower ⟨hq, .inl hlt⟩
    have ht : t ≤ d - r := not_lt.1 fun hlt => hupper (.inl hlt)
    -- The neighbours would be further apart than the number reaches, and so than its last place.
    have hparts : ((b + t : ℕ) : ℚ) * 10 ^ scale ≤ d * 10 ^ scale :=
      mul_le_mul_of_nonneg_right (by exact_mod_cast (by have := hn.lt; omega : b + t ≤ d)) hunit.le
    have hwide : ((below : ℚ) + 2) * 2 ^ e ≤ 4 * 10 ^ scale := by
      refine le_of_mul_le_mul_right ?_ hd
      push_cast at hparts
      linarith [hn.down, hn.up]
    have hnarrow : ((below : ℚ) + 2) * 10 ^ 16 ≤ 4 * m := by
      refine le_of_mul_le_mul_right ?_ hplace
      linarith
    have hnat : (below + 2) * 10 ^ 16 ≤ 4 * m := by exact_mod_cast hnarrow
    omega
  · rw [hsome]
    rfl
  · rw [hsome]
    rfl

/-! ## The search -/

/-- The search ends on a grid, if the last has something. -/
theorem exists_onGrid {m : Nat} {e : Int} {below : Nat} {power : Int} (fuel digits : Nat)
    (h : (onGrid m e below (power - (digits + fuel) + 1)).isSome = true) :
    ∃ scale, onGrid m e below scale = some (shortestFrom m e below power (fuel + 1) digits) := by
  induction fuel generalizing digits with
  | zero =>
    obtain ⟨d, hd⟩ := Option.isSome_iff_exists.1 h
    rw [Nat.cast_zero, add_zero] at hd
    exact ⟨_, by rw [shortestFrom, hd]⟩
  | succ fuel ih =>
    rw [shortestFrom]
    cases hgrid : onGrid m e below (power - digits + 1) with
    | some d => exact ⟨_, hgrid⟩
    | none =>
      refine ih (digits + 1) ?_
      have hscale : power - ((digits + 1 : ℕ) + (fuel : Int)) + 1 = power - (digits + (fuel + 1 : ℕ)) + 1 := by
        push_cast
        ring
      rwa [hscale]

/-- A power of ten that is reached is not above the number. -/
theorem pow_leadingPowerFrom_le {num den : Nat} (fuel : Nat) {guess : Int}
    (h : (10 : ℚ) ^ guess * den ≤ num) : (10 : ℚ) ^ leadingPowerFrom num den fuel guess * den ≤ num := by
  induction fuel generalizing guess with
  | zero => exact h
  | succ fuel ih =>
    rw [leadingPowerFrom]
    rcases lt_or_ge (guess + 1) 0 with hneg | hpos
    · simp only [if_pos hneg, Nat.pow_eq]
      split
      · rename_i hreached
        refine ih ?_
        have hcast : (den : ℚ) ≤ num * 10 ^ (guess + 1).natAbs := by exact_mod_cast hreached
        have hpow : (0 : ℚ) < 10 ^ (guess + 1) := zpow_pos (by norm_num) _
        calc (10 : ℚ) ^ (guess + 1) * den ≤ 10 ^ (guess + 1) * (num * 10 ^ (guess + 1).natAbs) :=
              mul_le_mul_of_nonneg_left hcast hpow.le
          _ = num := by linear_combination (num : ℚ) * zpow_mul_natAbs (b := 10) (by norm_num) hneg
      · exact h
    · simp only [if_neg (not_lt.2 hpos), Nat.pow_eq]
      split
      · rename_i hreached
        refine ih ?_
        rw [zpow_toNat 10 hpos, mul_comm]
        exact_mod_cast hreached
      · exact h

/-- Powers of ten and of two: 59 digits are less than 196 binary digits, 28 are more than 93. -/
theorem ten_zpow_le {g b : Int} (h : 0 ≤ g ∧ 196 * g ≤ 59 * b ∨ g ≤ 0 ∧ 93 * g ≤ 28 * b) :
    (10 : ℚ) ^ g ≤ 2 ^ b := by
  rcases h with ⟨hg, hb⟩ | ⟨hg, hb⟩
  · refine le_of_pow_le_pow_left₀ (n := 59) (by norm_num) (zpow_nonneg (by norm_num) b) ?_
    calc ((10 : ℚ) ^ g) ^ 59 = (10 ^ 59) ^ g := by rw [← zpow_natCast, ← zpow_mul, mul_comm, zpow_mul]; norm_cast
      _ ≤ (2 ^ 196) ^ g := zpow_le_zpow_left₀ hg (by norm_num) (by norm_num)
      _ = 2 ^ (196 * g) := by rw [zpow_mul]; norm_cast
      _ ≤ 2 ^ (59 * b) := zpow_le_zpow_right₀ (by norm_num) hb
      _ = (2 ^ b) ^ 59 := by rw [mul_comm, zpow_mul]; norm_cast
  · refine le_of_pow_le_pow_left₀ (n := 28) (by norm_num) (zpow_nonneg (by norm_num) b) ?_
    calc ((10 : ℚ) ^ g) ^ 28 = (10 ^ 28) ^ g := by rw [← zpow_natCast, ← zpow_mul, mul_comm, zpow_mul]; norm_cast
      _ ≤ (2 ^ 93) ^ g := by
        have h : ((2 : ℚ) ^ 93) ^ (-g) ≤ (10 ^ 28) ^ (-g) :=
          zpow_le_zpow_left₀ (by omega) (by norm_num) (by norm_num)
        simpa only [zpow_neg, inv_inv] using inv_anti₀ (zpow_pos (by norm_num) (-g)) h
      _ = 2 ^ (93 * g) := by rw [zpow_mul]; norm_cast
      _ ≤ 2 ^ (28 * b) := zpow_le_zpow_right₀ (by norm_num) hb
      _ = (2 ^ b) ^ 28 := by rw [mul_comm, zpow_mul]; norm_cast

/-- The leading power of ten of a number of the format is not above it. -/
theorem pow_leadingPower_le {num den : Nat} (hn : 0 < num) (hlog : num.log2 ≤ 1023)
    (hlog' : den.log2 ≤ 1074) : (10 : ℚ) ^ leadingPower num den * den ≤ num := by
  have hnum : 2 ^ num.log2 ≤ num := Nat.log2_self_le (by omega)
  have hden : den < 2 ^ (den.log2 + 1) := Nat.lt_log2_self
  have hdencast : (den : ℚ) ≤ 2 ^ (den.log2 + 1) := by exact_mod_cast hden.le
  have hnumcast : (2 : ℚ) ^ num.log2 ≤ num := by exact_mod_cast hnum
  refine pow_leadingPowerFrom_le 4 ?_
  calc (10 : ℚ) ^ (((num.log2 : Int) - den.log2 - 1) * 30103 / 100000 - 1) * den
      ≤ 2 ^ ((num.log2 : Int) - den.log2 - 1) * 2 ^ (den.log2 + 1) :=
        mul_le_mul (ten_zpow_le (by omega)) hdencast (Nat.cast_nonneg _)
          (zpow_nonneg (by norm_num) _)
    _ = 2 ^ num.log2 := by
        rw [← zpow_natCast, ← zpow_natCast, ← zpow_add₀ (by norm_num)]
        congr 1
        push_cast
        ring
    _ ≤ num := hnumcast

/-- The ratio of a number of the format, and how many binary digits its parts have. -/
theorem InFormat.toRatio {x : Binary64} (hx : x.InFormat) (hm : x.significand ≠ 0) :
    0 < x.toRatio.1 ∧ x.toRatio.1.log2 ≤ 1023 ∧ x.toRatio.2.log2 ≤ 1074 ∧ 0 < x.toRatio.2 ∧
      (x.toRatio.1 : ℚ) = x.significand * 2 ^ x.exponent * x.toRatio.2 := by
  have hmax : x.exponent ≤ 971 := by rcases hx with h | h <;> simp only [minExponent, maxExponent] at h <;> omega
  have hmin : -1074 ≤ x.exponent := hx.minExponent_le
  have hlt := hx.lt
  unfold Binary64.toRatio
  rcases lt_or_ge x.exponent 0 with he | he
  · have hlog : x.significand.log2 < 53 := (Nat.log2_lt hm).2 hlt
    simp only [if_pos he, Nat.shiftLeft_eq, one_mul, Nat.log2_two_pow]
    refine ⟨Nat.pos_of_ne_zero hm, by omega, by omega, by positivity, ?_⟩
    push_cast
    linear_combination -(x.significand : ℚ) * zpow_mul_natAbs (b := 2) (by norm_num) he
  · have hlog : (x.significand * 2 ^ x.exponent.toNat).log2 < 53 + x.exponent.toNat := by
      refine (Nat.log2_lt (by positivity)).2 ?_
      rw [Nat.pow_add]
      exact Nat.mul_lt_mul_of_pos_right hlt (by positivity)
    simp only [if_neg (not_lt.2 he), Nat.shiftLeft_eq, zpow_toNat 2 he]
    refine ⟨by positivity, by omega, by decide, by norm_num, ?_⟩
    push_cast
    ring

/-- The shortest decimal of a number is covered, and not zero unless the number is. -/
theorem covers_shortest {x : Binary64} (hx : x.InFormat) (hm : x.significand ≠ 0) :
    Covers x.significand x.exponent x.reach x.shortest.value ∧ 0 < x.shortest.value := by
  obtain ⟨hnum, hlog, hlog', hden, hratio⟩ := hx.toRatio hm
  have hpower : (10 : ℚ) ^ leadingPower x.toRatio.1 x.toRatio.2 ≤ x.significand * 2 ^ x.exponent := by
    have h := pow_leadingPower_le hnum hlog hlog'
    rw [hratio] at h
    exact le_of_mul_le_mul_right h (Nat.cast_pos.2 hden)
  have hreach : x.reach = 2 ∧ x.significand < 2 ^ 53 ∨ x.reach = 1 ∧ x.significand = 2 ^ 52 := by
    unfold reach
    split
    · rename_i h
      exact .inr ⟨rfl, h.1⟩
    · exact .inl ⟨rfl, hx.lt⟩
  have hshortest : x.shortest = (shortestFrom x.significand x.exponent x.reach
      (leadingPower x.toRatio.1 x.toRatio.2) 17 1).normalize := if_neg hm
  obtain ⟨scale, hgrid⟩ : ∃ scale, onGrid x.significand x.exponent x.reach scale =
      some (shortestFrom x.significand x.exponent x.reach (leadingPower x.toRatio.1 x.toRatio.2) 17 1) := by
    refine exists_onGrid 16 1 (isSome_onGrid hreach (le_trans (le_of_eq ?_) hpower))
    congr 1
    push_cast
    ring
  rw [hshortest, Decimal.value_normalize]
  exact covers_onGrid hgrid

/-- The shortest decimal tells the size of a number. -/
theorem eq_of_value_shortest {x y : Binary64} (hx : x.InFormat) (hy : y.InFormat)
    (h : x.shortest.value = y.shortest.value) :
    x.significand = y.significand ∧ x.exponent = y.exponent := by
  have hzero : ∀ {z : Binary64}, z.significand = 0 → z.shortest.value = 0 := by
    intro z hz
    rw [shortest, if_pos hz]
    simp [Decimal.value]
  have hexponent : ∀ {z : Binary64}, z.InFormat → z.significand = 0 → z.exponent = minExponent := by
    intro z hz hm
    rcases hz with h | h <;> omega
  by_cases hxm : x.significand = 0 <;> by_cases hym : y.significand = 0
  · exact ⟨hxm.trans hym.symm, (hexponent hx hxm).trans (hexponent hy hym).symm⟩
  · exact absurd (h.symm.trans (hzero hxm)) (covers_shortest hy hym).2.ne'
  · exact absurd (h.trans (hzero hym)) (covers_shortest hx hxm).2.ne'
  · exact eq_of_covers hx hy (covers_shortest hx hxm).1 (h ▸ (covers_shortest hy hym).1)

end Binary64

end Evomark
