import PocketCalculator.Proofs.Binary64.Closest
import PocketCalculator.Proofs.Decimal.Value

/-!
# Decimals are read as the nearest numbers

A decimal in range is read as the number nearest to its value. So reading keeps the order of
decimals, and the shortest decimals of two numbers are ordered as the numbers are.
-/
namespace PocketCalculator.Decimal

open Binary64

variable {d : Decimal} {negative : Bool}

theorem value_lt_leastOverflow_iff (d : Decimal) (negative : Bool) :
    d.value < leastOverflow ↔ (d.toBinary64 negative).isFinite = true := by
  rw [isFinite_toBinary64_iff, value, div_lt_iff₀ (by positivity)]
  exact_mod_cast Iff.rfl

theorem isNearest_of_toBinary64 {rank : Fin infinityRank}
    (h : d.toBinary64 negative = .finite negative rank) : IsNearest d.value rank := by
  have hrange := (d.value_lt_leastOverflow_iff negative).mpr (by rw [h]; rfl)
  exact isNearest_of_nearestRank (Nat.pow_pos (by decide)) d.value_eq_div.symm
    (toBinary64_eq_finite_iff.mp h) hrange

theorem toBinary64_eq_finite_iff_isNearest {rank : Fin infinityRank} :
    d.toBinary64 negative = .finite negative rank ↔ IsNearest d.value rank := by
  refine ⟨isNearest_of_toBinary64, fun h => ?_⟩
  obtain ⟨read, hread⟩ :=
    exists_toBinary64_eq ((d.value_lt_leastOverflow_iff negative).mp h.inRange)
  rw [hread, (isNearest_of_toBinary64 hread).unique h]

theorem isNearest_shortest (rank : Fin infinityRank) : IsNearest (shortest rank).value rank :=
  isNearest_of_toBinary64 (toBinary64_shortest false rank)

theorem value_shortest_mono {m n : Fin infinityRank} (h : m ≤ n) :
    (shortest m).value ≤ (shortest n).value := by
  by_contra hlt
  have hle := (isNearest_shortest n).mono (isNearest_shortest m) (not_le.mp hlt).le
  rw [le_antisymm h hle] at hlt
  exact hlt le_rfl

end PocketCalculator.Decimal
