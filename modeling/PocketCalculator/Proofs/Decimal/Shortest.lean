import PocketCalculator.Proofs.Decimal.Neighbourhood

/-!
# The shortest decimal

The search reaches every grid that can meet the neighbourhood of a magnitude. So the shortest
decimal lies in the neighbourhood, and no decimal with fewer places does.
-/
namespace PocketCalculator.Decimal

open Binary64

/-! ## The finest grid -/

theorem halfUnit_eq : halfUnit = 5 ^ finestPlaces := by decide +kernel

theorem ten_pow_eq (k : Nat) : 10 ^ k = 2 ^ k * 5 ^ k := Nat.mul_pow 2 5 k

theorem two_pow_mul_halfUnit (n : Nat) :
    n * 2 ^ finestPlaces * halfUnit = n * 10 ^ finestPlaces := by
  rw [halfUnit_eq, ten_pow_eq, mul_assoc]

/-- A decimal that the finest grid has, counted on that grid. -/
def onFinest (d : Decimal) : Nat := d.coefficient * 10 ^ (finestPlaces - d.places)

/-! ## The search -/

theorem shortest_eq {rank : Nat} {s : Neighbourhood} {chosen : Nat × Nat} (h : rank ≠ 0)
    (hs : Neighbourhood.ofRank rank = s) (hchosen : s.coarsest (exponentBeyond s.high) = chosen) :
    shortest rank =
      ⟨chosen.2 / 10 ^ min chosen.1 finestPlaces, finestPlaces - chosen.1⟩ := by
  rw [shortest, if_neg h, hs, ← hchosen]

theorem le_exponentBeyond {n k : Nat} (h : 10 ^ k ≤ n) : k ≤ exponentBeyond n := by
  by_contra hlt
  obtain ⟨e, he⟩ : ∃ e, exponentBeyond n = e := ⟨_, rfl⟩
  have hlog : 28 * (n.log2 + 1) ≤ 93 * e := by
    rw [← he, exponentBeyond]
    omega
  have hn : n ^ 28 < n ^ 28 :=
    calc n ^ 28 < (2 ^ (n.log2 + 1)) ^ 28 := Nat.pow_lt_pow_left Nat.lt_log2_self (by decide)
      _ = 2 ^ (28 * (n.log2 + 1)) := by rw [← pow_mul, mul_comm]
      _ ≤ 2 ^ (93 * e) := Nat.pow_le_pow_right (by decide) hlog
      _ = (2 ^ 93) ^ e := pow_mul 2 93 e
      _ ≤ (10 ^ 28) ^ e := Nat.pow_le_pow_left (by norm_num) e
      _ = (10 ^ e) ^ 28 := by rw [← pow_mul, ← pow_mul, mul_comm]
      _ ≤ n ^ 28 :=
        Nat.pow_le_pow_left ((Nat.pow_le_pow_right (by decide) (by omega)).trans h) 28
  exact Nat.lt_irrefl _ hn

variable {rank : Nat}

/-- The shortest decimal lies in the neighbourhood of the magnitude. -/
theorem contains_shortest (h : 0 < rank) :
    (Neighbourhood.ofRank rank).contains (shortest rank).onFinest = true := by
  obtain ⟨chosen, hchosen⟩ : ∃ chosen, (Neighbourhood.ofRank rank).coarsest
      (exponentBeyond (Neighbourhood.ofRank rank).high) = chosen := ⟨_, rfl⟩
  obtain ⟨hcontains, hdvd⟩ := Neighbourhood.coarsest_spec
    (Neighbourhood.contains_value_ofRank h) (exponentBeyond (Neighbourhood.ofRank rank).high)
  rw [hchosen] at hcontains hdvd
  have hexponent : finestPlaces - (finestPlaces - chosen.1) = min chosen.1 finestPlaces := by
    omega
  have hmin : 10 ^ min chosen.1 finestPlaces ∣ chosen.2 :=
    (pow_dvd_pow 10 (Nat.min_le_left _ _)).trans hdvd
  rwa [shortest_eq h.ne' rfl hchosen, onFinest, hexponent, Nat.div_mul_cancel hmin]

/-- No decimal in the neighbourhood has fewer places than the shortest one. -/
theorem places_shortest_le_of_contains (h : 0 < rank) {d : Decimal}
    (hd : d.places ≤ finestPlaces)
    (hcontains : (Neighbourhood.ofRank rank).contains d.onFinest = true) :
    (shortest rank).places ≤ d.places := by
  obtain ⟨hlow, hhigh⟩ := Neighbourhood.contains_iff.mp hcontains
  have hpos := Neighbourhood.low_ofRank_pos h
  have hcoefficient : 0 < d.coefficient := by
    refine Nat.pos_of_ne_zero fun hzero => ?_
    rw [onFinest, hzero, Nat.zero_mul] at hlow
    omega
  have hgrid : 10 ^ (finestPlaces - d.places) ≤ (Neighbourhood.ofRank rank).high := by
    have hle : 10 ^ (finestPlaces - d.places) ≤ d.onFinest := Nat.le_mul_of_pos_left _ hcoefficient
    omega
  have hcoarse := Neighbourhood.le_coarsest (le_exponentBeyond hgrid)
    (Neighbourhood.isSome_pointOn (Neighbourhood.contains_value_ofRank h)
      (Nat.pow_pos (by decide)) hcontains)
  rw [shortest_eq h.ne' rfl rfl]
  dsimp only
  omega

theorem shortest_zero : shortest 0 = ⟨0, 0⟩ := if_pos rfl

theorem places_shortest_le (rank : Nat) : (shortest rank).places ≤ finestPlaces := by
  by_cases h : rank = 0
  · rw [h, shortest_zero]
    exact Nat.zero_le _
  · rw [shortest_eq h rfl rfl]
    exact Nat.sub_le _ _

end PocketCalculator.Decimal
