import PocketCalculator.Proofs.Binary64.Closest

/-!
# Rounding before the range is looked at

The ranks go on beyond the finite numbers, as if exponents were not bounded. A quotient is rounded
to exactly one of them, and it is out of range if that one is.
-/
namespace PocketCalculator.Binary64

/-- The rank that a number is rounded to without a bound on exponents: no magnitude is nearer, and
if another is as near, it is the even one. -/
structure RoundsTo (q : ℚ) (rank : Nat) : Prop where
  near : ∀ other, |magnitude rank - q| ≤ |magnitude other - q|
  even : ∀ other, other ≠ rank → |magnitude rank - q| = |magnitude other - q| → rank % 2 = 0

variable {q : ℚ} {num den m n rank : Nat}

theorem roundsTo_nearestRank (hden : 0 < den) (hq : (num : ℚ) / den / unitsPerOne = q) :
    RoundsTo q (nearestRank num den) where
  near := by
    intro other
    rcases lt_trichotomy (nearestRank num den) other with hlt | rfl | hgt
    · exact (near_of_lt hden hq le_rfl hlt).1
    · exact le_rfl
    · exact (near_of_gt hden hq le_rfl hgt).1
  even := by
    intro other hne htie
    rcases lt_or_gt_of_ne hne with hgt | hlt
    · exact (near_of_gt hden hq le_rfl hgt).2 htie
    · exact (near_of_lt hden hq le_rfl hlt).2 htie

theorem RoundsTo.le (hm : RoundsTo q m) (hn : RoundsTo q n) : n ≤ m := by
  refine not_lt.mp fun hlt => ?_
  have hdistance := le_antisymm (hm.near n) (hn.near m)
  have heven := hm.even n hlt.ne' hdistance
  have heven' := hn.even m hlt.ne hdistance.symm
  obtain ⟨rank, -, hnearer⟩ := exists_nearer hlt hdistance heven heven'
  exact absurd (hm.near rank) (not_le.mpr hnearer)

theorem RoundsTo.unique (hm : RoundsTo q m) (hn : RoundsTo q n) : m = n :=
  le_antisymm (hn.le hm) (hm.le hn)

theorem roundsTo_iff (hden : 0 < den) (hq : (num : ℚ) / den / unitsPerOne = q) :
    RoundsTo q rank ↔ nearestRank num den = rank := by
  have hcomputed := roundsTo_nearestRank hden hq
  refine ⟨fun h => hcomputed.unique h, ?_⟩
  rintro rfl
  exact hcomputed

end PocketCalculator.Binary64
