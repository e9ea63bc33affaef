import Mathlib.Tactic.NormNum
import Mathlib.Tactic.Ring
import PocketCalculator.Proofs.Binary64.Range
import PocketCalculator.Proofs.Decimal.Shortest
import PocketCalculator.Proofs.Decimal.Written

/-!
# Decimal rounding stays in range

A great magnitude is an integer, so its shortest decimal has no places and rounding leaves it
alone. Every other magnitude is rounded to a decimal far below the greatest finite number.
-/
namespace PocketCalculator.Binary64

theorem isFinite_dropZeroSign {x : Binary64} (h : x.isFinite = true) :
    x.dropZeroSign.isFinite = true := by
  unfold dropZeroSign
  split
  · rfl
  · exact h

end PocketCalculator.Binary64

namespace PocketCalculator.Decimal

open Binary64

/-- An integer is a point of the grid of the integers. -/
theorem dvd_value_ofRank {rank : Nat} (h : finestPlaces ≤ rank / 2 ^ 52 - 1 + 1) :
    10 ^ finestPlaces ∣ (Neighbourhood.ofRank rank).value := by
  have htwo : 2 ^ finestPlaces ∣ 2 * units rank := by
    unfold units
    refine Dvd.dvd.trans (pow_dvd_pow 2 h) ?_
    generalize rank / 2 ^ 52 - 1 = doublings
    exact ⟨rank - doublings * 2 ^ 52, by dsimp only; ring⟩
  rw [ten_pow_eq, ← halfUnit_eq]
  exact Nat.mul_dvd_mul_right htwo halfUnit

theorem places_shortest_of_le {rank : Nat} (h : 1074 ≤ rank / 2 ^ 52 - 1) :
    (shortest rank).places = 0 := by
  have hpos : 0 < rank := by omega
  obtain ⟨integer, hinteger⟩ := dvd_value_ofRank (Nat.succ_le_succ h)
  have hcontains :
      (Neighbourhood.ofRank rank).contains (⟨integer, 0⟩ : Decimal).onFinest = true := by
    rw [onFinest, Nat.sub_zero, mul_comm, ← hinteger]
    exact Neighbourhood.contains_value_ofRank hpos
  exact Nat.eq_zero_of_le_zero (places_shortest_le_of_contains hpos (Nat.zero_le _) hcontains)

/-- A shortest decimal with a fraction is less than 2 ^ 54. -/
theorem coefficient_shortest_le {rank : Nat} (h : (shortest rank).places ≠ 0) :
    (shortest rank).coefficient ≤ 2 ^ 54 * 10 ^ (shortest rank).places := by
  have hpos : 0 < rank := by
    refine Nat.pos_of_ne_zero ?_
    rintro rfl
    exact h (by rw [shortest_zero])
  have hsmall : rank / 2 ^ 52 - 1 < finestPlaces := by
    by_contra hgreat
    exact h (places_shortest_of_le ((Nat.le_succ 1074).trans (Nat.le_of_not_lt hgreat)))
  have hhigh := Neighbourhood.high_ofRank_lt hsmall
  have hpoint := (Neighbourhood.contains_iff.mp (contains_shortest hpos)).2
  have hplaces := places_shortest_le rank
  rw [two_pow_mul_halfUnit] at hhigh
  refine Nat.le_of_mul_le_mul_right ?_
    (Nat.pow_pos (by decide) : 0 < 10 ^ (finestPlaces - (shortest rank).places))
  calc (shortest rank).coefficient * 10 ^ (finestPlaces - (shortest rank).places)
      ≤ 2 ^ 54 * 10 ^ finestPlaces := by
        rw [onFinest] at hpoint
        omega
    _ = 2 ^ 54 * 10 ^ (shortest rank).places *
          10 ^ (finestPlaces - (shortest rank).places) := by
        rw [mul_assoc, ← pow_add, Nat.add_sub_cancel' hplaces]

/-! ## Rounding -/

theorem coefficient_roundHalfUp_le {d : Decimal} {bound places : Nat}
    (h : d.coefficient ≤ bound * 10 ^ d.places) (hplaces : places < d.places) :
    (d.roundHalfUp places).coefficient ≤ (bound + 1) * 10 ^ places := by
  have hunit : 0 < 10 ^ (d.places - places) := Nat.pow_pos (by decide)
  have hone : 0 < 10 ^ places := Nat.pow_pos (by decide)
  have hsplit : 10 ^ d.places = 10 ^ places * 10 ^ (d.places - places) := by
    rw [← pow_add, Nat.add_sub_cancel' hplaces.le]
  rw [roundHalfUp, if_neg (by omega)]
  dsimp only
  generalize 10 ^ (d.places - places) = unit at hunit hsplit ⊢
  rw [hsplit, ← mul_assoc] at h
  apply Nat.div_le_of_le_mul
  calc d.coefficient + unit / 2 ≤ bound * 10 ^ places * unit + unit := by omega
    _ = unit * (bound * 10 ^ places + 1) := by ring
    _ ≤ unit * ((bound + 1) * 10 ^ places) :=
        Nat.mul_le_mul_left _ (by rw [Nat.add_mul]; omega)

theorem places_roundHalfUp {d : Decimal} {places : Nat} (h : ¬d.places ≤ places) :
    (d.roundHalfUp places).places = places := by
  rw [roundHalfUp, if_neg h]

theorem isFinite_toBinary64_roundHalfUp {rank places : Nat}
    (h : ¬(shortest rank).places ≤ places) (negative : Bool) :
    (((shortest rank).roundHalfUp places).toBinary64 negative).isFinite = true := by
  have hshortest := @coefficient_shortest_le rank (by omega)
  have hround := coefficient_roundHalfUp_le hshortest (Nat.lt_of_not_le h)
  rw [isFinite_toBinary64_iff, places_roundHalfUp h]
  exact hround.trans_lt (Nat.mul_lt_mul_of_pos_right lt_leastOverflow (Nat.pow_pos (by decide)))

end PocketCalculator.Decimal

namespace PocketCalculator.Binary64

theorem isFinite_roundHalfAway {x : Binary64} (h : x.isFinite = true) (places : Nat) :
    (x.roundHalfAway places).isFinite = true := by
  cases x with
  | nan => cases h
  | infinity negative => cases h
  | finite negative rank =>
    rw [roundHalfAway_eq_ite]
    split
    · exact isFinite_dropZeroSign h
    · rename_i hplaces
      exact isFinite_dropZeroSign (Decimal.isFinite_toBinary64_roundHalfUp hplaces negative)

end PocketCalculator.Binary64
