import Mathlib.Tactic.NormNum
import Mathlib.Tactic.Ring
import PocketCalculator.Decimal.Shortest
import PocketCalculator.Proofs.Binary64.Nearest

/-!
# Which values are in range

Rounding to the nearest rank stays in range exactly below the point halfway between the
greatest finite magnitude and the next power of two, which itself goes up.
-/
namespace PocketCalculator

namespace Binary64

/-- The quotients whose rank is below a power of two are those nearer to the last rank before
it. -/
theorem nearestRank_lt_iff {num den : Nat} (hden : 0 < den) (e : Nat) :
    nearestRank num den < (e + 3) * 2 ^ 52 ↔ num < (2 ^ 54 - 1) * 2 ^ e * den := by
  have hlast : (e + 3) * 2 ^ 52 - 1 = (e + 1) * 2 ^ 52 + (2 ^ 53 - 1) := by omega
  have hhalfway : twiceHalfway ((e + 3) * 2 ^ 52 - 1) = 2 * ((2 ^ 54 - 1) * 2 ^ e) := by
    rw [hlast, twiceHalfway_eq_mul (Or.inl (by norm_num)) (by norm_num), pow_succ]
    ring
  have hle := nearestRank_le_iff num hden ((e + 3) * 2 ^ 52 - 1)
  rw [hhalfway, mul_assoc 2] at hle
  generalize (2 ^ 54 - 1) * 2 ^ e * den = limit at hle ⊢
  omega

theorem isFinite_ofUnits_iff {num den : Nat} (hden : 0 < den) (negative : Bool) :
    (ofUnits negative num den).isFinite = true ↔ num < (2 ^ 54 - 1) * 2 ^ 2044 * den := by
  rw [← nearestRank_lt_iff hden 2044, ofUnits]
  split
  · rename_i hrank
    exact iff_of_true rfl hrank
  · rename_i hrank
    exact iff_of_false Bool.false_ne_true hrank

/-- Halfway between the greatest finite number, 2 ^ 1024 - 2 ^ 971, and 2 ^ 1024. -/
def leastOverflow : Nat := (2 ^ 54 - 1) * 2 ^ 970

theorem lt_leastOverflow : 2 ^ 54 + 1 < leastOverflow := by
  have htwo : 2 ^ 1 ≤ 2 ^ 970 := pow_le_pow_right₀ (by norm_num) (by norm_num)
  rw [leastOverflow]
  generalize 2 ^ 970 = power at htwo ⊢
  omega

theorem unitsPerOne_eq : unitsPerOne = 2 ^ 1074 := by
  unfold unitsPerOne
  -- The two powers differ in their instances only, and must not be computed.
  generalize 1074 = exponent
  rfl

theorem two_pow_le_unitsPerOne {exponent : Nat} (h : exponent ≤ 1074) :
    2 ^ exponent ≤ unitsPerOne := by
  rw [unitsPerOne_eq]
  exact pow_le_pow_right₀ one_le_two h

theorem leastOverflow_mul_unitsPerOne : leastOverflow * unitsPerOne = (2 ^ 54 - 1) * 2 ^ 2044 := by
  rw [leastOverflow, unitsPerOne_eq, mul_assoc, ← pow_add]

end Binary64

/-- A decimal is nearest to a finite number exactly if it is below the least overflow. -/
theorem Decimal.isFinite_toBinary64_iff (d : Decimal) (negative : Bool) :
    (d.toBinary64 negative).isFinite = true ↔
      d.coefficient < Binary64.leastOverflow * 10 ^ d.places := by
  have hden : 0 < 10 ^ d.places := Nat.pow_pos (by decide)
  have hunits : (2 ^ 54 - 1) * 2 ^ 2044 * 10 ^ d.places =
      Binary64.leastOverflow * 10 ^ d.places * Binary64.unitsPerOne := by
    rw [← Binary64.leastOverflow_mul_unitsPerOne, mul_right_comm]
  rw [toBinary64, Binary64.isFinite_ofUnits_iff hden, hunits]
  exact Nat.mul_lt_mul_right Binary64.unitsPerOne_pos

end PocketCalculator
