import PocketCalculator.Proofs.Decimal.Shortest

/-!
# Decimals read back

A decimal is read as a magnitude exactly when it lies in the neighbourhood of that magnitude.
The shortest decimal does, and no decimal with fewer places does.
-/
namespace PocketCalculator.Decimal

open Binary64

/-! ## Reading -/

theorem two_pow_finestPlaces : 2 ^ finestPlaces = 2 * unitsPerOne := by
  rw [show finestPlaces = 1 + 1074 from rfl, pow_add, pow_one, unitsPerOne]

/-- Comparing with a halfway point takes place on the finest grid. -/
theorem onFinest_compare {d : Decimal} (h : d.places ≤ finestPlaces) (twice : Nat) :
    (twice * 10 ^ d.places < 2 * (d.coefficient * unitsPerOne) ↔
      twice * halfUnit < d.onFinest) ∧
    (2 * (d.coefficient * unitsPerOne) < twice * 10 ^ d.places ↔
      d.onFinest < twice * halfUnit) := by
  have hscale : 0 < 10 ^ (finestPlaces - d.places) := Nat.pow_pos (by decide)
  have hpow : 0 < 2 ^ finestPlaces := Nat.two_pow_pos _
  have htwice : twice * 10 ^ d.places * 10 ^ (finestPlaces - d.places) =
      twice * halfUnit * 2 ^ finestPlaces := by
    rw [mul_assoc, ← pow_add, Nat.add_sub_cancel' h, ← two_pow_mul_halfUnit, mul_right_comm]
  have hpoint : 2 * (d.coefficient * unitsPerOne) * 10 ^ (finestPlaces - d.places) =
      d.onFinest * 2 ^ finestPlaces := by
    rw [onFinest, two_pow_finestPlaces]
    ring
  constructor
  · rw [← Nat.mul_lt_mul_right hscale, htwice, hpoint, Nat.mul_lt_mul_right hpow]
  · rw [← Nat.mul_lt_mul_right hscale, htwice, hpoint, Nat.mul_lt_mul_right hpow]

/-- A decimal is nearest to the rank whose neighbourhood it lies in. -/
theorem nearestRank_eq_iff_contains {d : Decimal} (h : d.places ≤ finestPlaces) {rank : Nat}
    (hrank : 0 < rank) :
    nearestRank (d.coefficient * unitsPerOne) (10 ^ d.places) = rank ↔
      (Neighbourhood.ofRank rank).contains d.onFinest = true := by
  obtain ⟨hlow, hlow'⟩ := onFinest_compare h (twiceHalfway (rank - 1))
  obtain ⟨hhigh, hhigh'⟩ := onFinest_compare h (twiceHalfway rank)
  have hmargin := Neighbourhood.margin_ofRank rank
  rw [nearestRank_eq_iff _ (Nat.pow_pos (by decide)) hrank, Neighbourhood.contains_iff,
    Neighbourhood.low_ofRank hrank, Neighbourhood.high_ofRank, hmargin]
  omega

theorem toBinary64_eq_finite_iff {d : Decimal} {negative : Bool} {rank : Fin infinityRank} :
    d.toBinary64 negative = .finite negative rank ↔
      nearestRank (d.coefficient * unitsPerOne) (10 ^ d.places) = rank.val := by
  unfold toBinary64 ofUnits
  dsimp only
  split
  · simp [Fin.ext_iff]
  · rename_i hrange
    refine iff_of_false nofun fun heq => hrange ?_
    rw [heq]
    exact rank.isLt

theorem toBinary64_zero (negative : Bool) (places : Nat) :
    (⟨0, places⟩ : Decimal).toBinary64 negative = .zero negative := by
  refine toBinary64_eq_finite_iff.mpr ?_
  simp [nearestRank, roundHalfEven]

/-! ## The shortest decimal -/

/-- The shortest decimal is read as the magnitude it was made from. -/
theorem toBinary64_shortest (negative : Bool) (rank : Fin infinityRank) :
    (shortest rank).toBinary64 negative = .finite negative rank := by
  by_cases hzero : rank.val = 0
  · have hrank : rank = ⟨0, by decide⟩ := Fin.ext hzero
    rw [hzero, shortest_zero, toBinary64_zero, hrank, zero]
  · have hpos := Nat.pos_of_ne_zero hzero
    exact toBinary64_eq_finite_iff.mpr
      ((nearestRank_eq_iff_contains (places_shortest_le rank) hpos).mpr (contains_shortest hpos))

theorem places_shortest_le_of_toBinary64 {d : Decimal} {negative : Bool}
    {rank : Fin infinityRank} (h : d.toBinary64 negative = .finite negative rank) :
    (shortest rank).places ≤ d.places := by
  by_cases hd : d.places ≤ finestPlaces
  · by_cases hzero : rank.val = 0
    · rw [hzero, shortest_zero]
      exact Nat.zero_le _
    · have hpos := Nat.pos_of_ne_zero hzero
      exact places_shortest_le_of_contains hpos hd
        ((nearestRank_eq_iff_contains hd hpos).mp (toBinary64_eq_finite_iff.mp h))
  · have hle := places_shortest_le rank
    omega

end PocketCalculator.Decimal
