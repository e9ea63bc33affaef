import Mathlib.Algebra.Order.Field.Rat
import Mathlib.Tactic.FieldSimp
import Mathlib.Tactic.Linarith
import Mathlib.Tactic.Positivity
import PocketCalculator.Binary64.Arithmetic
import PocketCalculator.Proofs.Binary64.Range

/-!
# Exact values

The rational numbers that finite binary64 numbers are. A value is rounded to the nearest one,
which is off by at most half of a smallest positive magnitude, or by one part in 2 ^ 53.
-/
namespace PocketCalculator

/-- A number of the given sign. -/
def signed (negative : Bool) (q : ℚ) : ℚ := if negative then -q else q

theorem abs_signed (negative : Bool) (q : ℚ) : |signed negative q| = |q| := by
  cases negative with
  | false => rfl
  | true => exact abs_neg q

theorem signed_zero (negative : Bool) : signed negative 0 = 0 := by
  cases negative with
  | false => rfl
  | true => exact neg_zero

theorem signed_sub_signed (negative : Bool) (q r : ℚ) :
    signed negative q - signed negative r = signed negative (q - r) := by
  cases negative with
  | false => rfl
  | true =>
    simp only [signed, if_true]
    ring

theorem signed_not (negative : Bool) (q : ℚ) : signed (!negative) q = -signed negative q := by
  cases negative with
  | false => rfl
  | true => exact (neg_neg q).symm

theorem signed_natAbs (n : ℤ) : signed (decide (n < 0)) n.natAbs = n := by
  unfold signed
  split
  · rename_i hneg
    rw [Nat.cast_natAbs, abs_of_neg (by simpa using hneg), Int.cast_neg, neg_neg]
  · rename_i hneg
    rw [Nat.cast_natAbs, abs_of_nonneg (by simpa using hneg)]

theorem signed_mul (negative : Bool) (q r : ℚ) : signed negative (q * r) = signed negative q * r := by
  cases negative with
  | false => rfl
  | true => exact (neg_mul q r).symm

theorem signed_div (negative : Bool) (q r : ℚ) : signed negative (q / r) = signed negative q / r := by
  rw [div_eq_mul_inv, signed_mul, ← div_eq_mul_inv]

namespace Binary64

/-- The magnitude of a rank. -/
def magnitude (rank : Nat) : ℚ := units rank / unitsPerOne

/-- The value of a finite number. -/
def value : Binary64 → ℚ
  | finite negative rank => signed negative (magnitude rank)
  | _ => 0

/-- How far a number may be from the magnitude it is rounded to. -/
def halfSpacing (q : ℚ) : ℚ := max (1 / (2 * unitsPerOne)) (q / 2 ^ 53)

theorem unitsPerOne_cast_pos : (0 : ℚ) < unitsPerOne := by exact_mod_cast unitsPerOne_pos

/-! ## Rounding -/

/-- Being nearer to an integer than a half, without division. -/
theorem bounds_of_near {num den k : Nat} (hden : 0 < den) (h : |(num : ℚ) / den - k| < 1 / 2) :
    2 * (k * den) < 2 * num + den ∧ 2 * num < 2 * (k * den) + den := by
  obtain ⟨hlow, hhigh⟩ := abs_lt.mp h
  have hden' : (0 : ℚ) < den := by exact_mod_cast hden
  have hquotient : (num : ℚ) / den * den = num := div_mul_cancel₀ _ hden'.ne'
  have hbelow := mul_lt_mul_of_pos_right hlow hden'
  have habove := mul_lt_mul_of_pos_right hhigh hden'
  have hbelow' : (2 : ℚ) * (k * den) < 2 * num + den := by linarith
  have habove' : (2 : ℚ) * num < 2 * (k * den) + den := by linarith
  exact ⟨by exact_mod_cast hbelow', by exact_mod_cast habove'⟩

theorem roundHalfEven_eq_of_near {num den k : Nat} (hden : 0 < den)
    (h : |(num : ℚ) / den - k| < 1 / 2) : roundHalfEven num den = k := by
  obtain ⟨hbelow, habove⟩ := bounds_of_near hden h
  have hbound : (2 * k + 1) * den = 2 * (k * den) + den := by ring
  have hle := roundHalfEven_le_iff num hden k
  rw [hbound] at hle
  refine le_antisymm (hle.mpr (Or.inl habove)) ?_
  by_contra hlt
  have hnext := Nat.mul_le_mul_right den (Nat.lt_of_not_le hlt)
  rw [Nat.succ_mul] at hnext
  have hnear := (roundHalfEven_near num hden).1
  omega

/-- Counted in smallest positive magnitudes, the nearest magnitude is off by half of a spacing,
which is one, or fits 2 ^ 52 times into the value. -/
theorem exists_spacing (num : Nat) {den : Nat} (hden : 0 < den) :
    ∃ spacing, (spacing = 1 ∨ 2 ^ 52 * spacing * den ≤ num) ∧
      2 * num ≤ 2 * (units (nearestRank num den) * den) + den * spacing ∧
      2 * (units (nearestRank num den) * den) ≤ 2 * num + den * spacing := by
  obtain ⟨d, hd⟩ : ∃ d, (num / den).log2 - 52 = d := ⟨_, rfl⟩
  have hbelow := lt_two_pow_doublings (num / den)
  have habove := @two_pow_doublings_le (num / den)
  rw [hd] at hbelow habove
  have hpow := Nat.two_pow_pos d
  have hle := le_roundHalfEven num (den * 2 ^ d)
  have hge := roundHalfEven_le num (den * 2 ^ d)
  obtain ⟨k, hk⟩ : ∃ k, roundHalfEven num (den * 2 ^ d) = k := ⟨_, rfl⟩
  rw [← Nat.div_div_eq_div_mul, hk] at hle hge
  have hlow : 2 ^ 52 ≤ k ∨ d = 0 := by
    by_cases hzero : d = 0
    · exact Or.inr hzero
    · exact Or.inl (((Nat.le_div_iff_mul_le hpow).mpr (habove hzero)).trans hle)
  have hhigh : k ≤ 2 ^ 53 :=
    hge.trans (Nat.div_lt_of_lt_mul (hbelow.trans_eq (mul_comm _ _)))
  have hunits : units (nearestRank num den) = k * 2 ^ d := by
    rw [nearestRank, hd, hk]
    exact units_eq_mul hlow hhigh
  have hnear := roundHalfEven_near num (Nat.mul_pos hden hpow)
  rw [hk] at hnear
  refine ⟨2 ^ d, ?_, ?_⟩
  · by_cases hzero : d = 0
    · exact Or.inl (by rw [hzero, pow_zero])
    · exact Or.inr ((Nat.mul_le_mul_right den (habove hzero)).trans (Nat.div_mul_le_self num den))
  · have hscaled : k * (den * 2 ^ d) = units (nearestRank num den) * den := by
      rw [hunits]
      ring
    rwa [hscaled] at hnear

theorem half_le_halfSpacing {spacing num den : Nat} (hden : 0 < den)
    (h : spacing = 1 ∨ 2 ^ 52 * spacing * den ≤ num) :
    (spacing : ℚ) / 2 / unitsPerOne ≤ halfSpacing (num / den / unitsPerOne) := by
  rcases h with rfl | hspacing
  · refine le_max_of_le_left (le_of_eq ?_)
    rw [Nat.cast_one, div_div]
  · refine le_max_of_le_right ?_
    have hspacing' : (2 : ℚ) ^ 52 * spacing * den ≤ num := by exact_mod_cast hspacing
    rw [div_right_comm _ _ ((2 : ℚ) ^ 53)]
    refine div_le_div_of_nonneg_right ?_ unitsPerOne_cast_pos.le
    rw [div_div, le_div_iff₀ (by positivity)]
    linarith

/-- The nearest magnitude is off by at most half of the spacing. -/
theorem magnitude_nearestRank_near (num : Nat) {den : Nat} (hden : 0 < den) :
    |magnitude (nearestRank num den) - num / den / unitsPerOne| ≤
      halfSpacing (num / den / unitsPerOne) := by
  obtain ⟨spacing, hspacing, hbelow, habove⟩ := exists_spacing num hden
  have hone := unitsPerOne_cast_pos
  have hden' : (0 : ℚ) < den := by exact_mod_cast hden
  have hbelow' : (2 : ℚ) * num ≤ 2 * (units (nearestRank num den) * den) + den * spacing := by
    exact_mod_cast hbelow
  have habove' : (2 : ℚ) * (units (nearestRank num den) * den) ≤ 2 * num + den * spacing := by
    exact_mod_cast habove
  have hnear : |(units (nearestRank num den) : ℚ) - num / den| ≤ spacing / 2 := by
    have hquotient : (num : ℚ) / den * den = num := div_mul_cancel₀ _ hden'.ne'
    rw [abs_sub_le_iff]
    constructor
    · refine le_of_mul_le_mul_right ?_ hden'
      linarith
    · refine le_of_mul_le_mul_right ?_ hden'
      linarith
  calc |magnitude (nearestRank num den) - num / den / unitsPerOne|
      = |(units (nearestRank num den) : ℚ) - num / den| / unitsPerOne := by
        rw [magnitude, ← sub_div, abs_div, abs_of_pos hone]
    _ ≤ spacing / 2 / unitsPerOne := div_le_div_of_nonneg_right hnear hone.le
    _ ≤ halfSpacing (num / den / unitsPerOne) := half_le_halfSpacing hden hspacing

variable {x y : Binary64} {negative : Bool} {num den : Nat}

theorem value_ofUnits_near (hden : 0 < den) (h : (ofUnits negative num den).isFinite = true) :
    |(ofUnits negative num den).value - signed negative (num / den / unitsPerOne)| ≤
      halfSpacing (num / den / unitsPerOne) := by
  have hnear := magnitude_nearestRank_near num hden
  unfold ofUnits at h ⊢
  dsimp only at h ⊢
  split at h
  · rename_i hrank
    rw [dif_pos hrank, value, signed_sub_signed, abs_signed]
    exact hnear
  · cases h

/-! ## Arithmetic -/

theorem value_neg (x : Binary64) : x.neg.value = -x.value := by
  cases x with
  | nan => exact neg_zero.symm
  | infinity negative => exact neg_zero.symm
  | finite negative rank => exact signed_not negative _

theorem value_of_isZero (h : x.isZero = true) : x.value = 0 := by
  cases x with
  | nan => rfl
  | infinity negative => rfl
  | finite negative rank =>
    have hrank : rank.val = 0 := by simpa [isZero] using h
    rw [value, magnitude, hrank, units_zero, Nat.cast_zero, zero_div, signed_zero]

theorem value_zero (negative : Bool) : (zero negative).value = 0 := value_of_isZero rfl

theorem value_eq_signedUnits (negative : Bool) (rank : Fin infinityRank) :
    (finite negative rank).value = signedUnits negative rank / unitsPerOne := by
  rw [value, signed, magnitude, signedUnits]
  cases negative with
  | false => rw [if_neg Bool.false_ne_true, if_neg Bool.false_ne_true, Int.cast_natCast]
  | true => rw [if_pos rfl, if_pos rfl, Int.cast_neg, Int.cast_natCast, neg_div]

/-- The exact sum of two finite numbers, and the number that it is rounded to. -/
theorem exists_sum (hx : x.isFinite = true) (hy : y.isFinite = true) :
    ∃ sum : ℤ, x.value + y.value = sum / unitsPerOne ∧
      (sum = 0 ∧ (∃ negative, x.add y = zero negative) ∨
        x.add y = ofUnits (decide (sum < 0)) sum.natAbs 1) := by
  cases x with
  | nan => cases hx
  | infinity s => cases hx
  | finite s m =>
    cases y with
    | nan => cases hy
    | infinity t => cases hy
    | finite t n =>
      refine ⟨signedUnits s m + signedUnits t n, ?_, ?_⟩
      · rw [value_eq_signedUnits, value_eq_signedUnits, Int.cast_add, add_div]
      · rw [add]
        split
        · rename_i hsum
          exact Or.inl ⟨hsum, _, rfl⟩
        · exact Or.inr rfl

theorem value_add_near (hx : x.isFinite = true) (hy : y.isFinite = true)
    (h : (x.add y).isFinite = true) :
    |(x.add y).value - (x.value + y.value)| ≤ halfSpacing |x.value + y.value| := by
  obtain ⟨sum, hvalue, ⟨hzero, negative, hadd⟩ | hadd⟩ := exists_sum hx hy
  · rw [hadd, value_zero, hvalue, hzero, Int.cast_zero, zero_div, sub_zero, abs_zero]
    exact le_max_of_le_right (by norm_num)
  · have hnear := value_ofUnits_near Nat.one_pos (hadd ▸ h)
    have hsum : |(sum : ℚ) / unitsPerOne| = sum.natAbs / unitsPerOne := by
      rw [abs_div, abs_of_pos unitsPerOne_cast_pos, Nat.cast_natAbs, Int.cast_abs]
    rw [Nat.cast_one, div_one, signed_div, signed_natAbs] at hnear
    rwa [hadd, hvalue, hsum]

theorem isFinite_add (hx : x.isFinite = true) (hy : y.isFinite = true)
    (h : |x.value + y.value| < leastOverflow) : (x.add y).isFinite = true := by
  obtain ⟨sum, hvalue, ⟨-, negative, hadd⟩ | hadd⟩ := exists_sum hx hy
  · rw [hadd]
    rfl
  · rw [hadd, isFinite_ofUnits_iff Nat.one_pos, mul_one]
    rw [hvalue, abs_div, abs_of_pos unitsPerOne_cast_pos, div_lt_iff₀ unitsPerOne_cast_pos,
      ← Int.cast_abs, ← Nat.cast_natAbs] at h
    have hlt : sum.natAbs < leastOverflow * unitsPerOne := by exact_mod_cast h
    exact hlt.trans_eq leastOverflow_mul_unitsPerOne

end Binary64

end PocketCalculator
