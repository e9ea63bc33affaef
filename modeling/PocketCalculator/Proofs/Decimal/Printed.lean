import PocketCalculator.Proofs.Decimal.ReadBack

/-!
# Printed numbers are read back

A number is printed from its exact value, so the digits need not be those of its shortest
decimal. They still denote a point of the number's neighbourhood: the grid of the printed
digits meets the neighbourhood, and the point printed is the one nearest to the value. Only at
a doubling of the spacing, where the neighbourhood is longer above the value than below it,
does this depend on the number of places.
-/
namespace PocketCalculator.Decimal

open Binary64

/-- What is printed of a magnitude with the given number of places. -/
def printed (rank places : Nat) : Decimal :=
  ⟨roundHalfEven (units rank * 10 ^ places) unitsPerOne, places⟩

/-! ## The nearest point of a grid -/

namespace Neighbourhood

variable {s : Neighbourhood} {step multiple : Nat}

/-- What lets no grid point outside the neighbourhood be nearer to the value than one inside:
the value is on the grid, or in the middle, or both ends are nearer to it than half a step. -/
inductive SuitsGrid (s : Neighbourhood) (step : Nat) : Prop where
  | onGrid : step ∣ s.value → SuitsGrid s step
  | centred : 2 * s.value = s.low + s.high → SuitsGrid s step
  | narrow : 2 * s.value < 2 * s.low + step → 2 * s.high < 2 * s.value + step →
      SuitsGrid s step

theorem multiples_apart (step a b : Nat) : a * step + step ≤ b * step ∨ a * step = b * step ∨
    b * step + step ≤ a * step := by
  rcases Nat.lt_trichotomy a b with hlt | rfl | hgt
  · exact Or.inl ((Nat.succ_mul _ _).symm.trans_le (Nat.mul_le_mul_right step hlt))
  · exact Or.inr (Or.inl rfl)
  · exact Or.inr (Or.inr ((Nat.succ_mul _ _).symm.trans_le (Nat.mul_le_mul_right step hgt)))

/-- The grid point nearest to the value lies in the neighbourhood if any grid point does. -/
theorem contains_nearest (hstep : 0 < step) (hsuits : s.SuitsGrid step)
    (hvalue : s.contains s.value = true) (h : s.contains (multiple * step) = true) :
    s.contains (roundHalfEven s.value step * step) = true := by
  obtain ⟨habove, hbelow⟩ := roundHalfEven_near s.value hstep
  obtain ⟨nearest, hnearest⟩ : ∃ nearest, roundHalfEven s.value step = nearest := ⟨_, rfl⟩
  rw [hnearest] at habove hbelow ⊢
  have hapart := multiples_apart step multiple nearest
  cases hsuits with
  | onGrid hdvd =>
    obtain ⟨quotient, hquotient⟩ := hdvd
    rw [mul_comm] at hquotient
    have heq : nearest * step = s.value := by
      have hcases := multiples_apart step quotient nearest
      omega
    rwa [heq]
  | centred hmiddle =>
    -- The point and its mirror image lie on both sides of the nearest one.
    rw [contains_iff] at h ⊢
    omega
  | narrow hlow hhigh =>
    have heq : nearest * step = multiple * step := by
      rw [contains_iff] at h
      omega
    rwa [heq]

end Neighbourhood

/-! ## Printing -/

variable {rank places : Nat}

theorem onFinest_printed (h : places ≤ finestPlaces) :
    (printed rank places).onFinest =
      roundHalfEven (Neighbourhood.ofRank rank).value (10 ^ (finestPlaces - places)) *
        10 ^ (finestPlaces - places) := by
  have hpower : 10 ^ (finestPlaces - places) * 10 ^ places = unitsPerOne * (2 * halfUnit) := by
    rw [← pow_add, Nat.sub_add_cancel h, ten_pow_eq, two_pow_finestPlaces, halfUnit_eq]
    ring
  have hvalue : (Neighbourhood.ofRank rank).value * 10 ^ places =
      units rank * 10 ^ places * (2 * halfUnit) := by
    rw [Neighbourhood.ofRank]
    ring
  rw [← roundHalfEven_mul_right _ _ (Nat.pow_pos (by decide : 0 < 10) : 0 < 10 ^ places), hpower,
    hvalue, roundHalfEven_mul_right _ _ (Nat.mul_pos (by decide) halfUnit_pos), onFinest, printed]

/-- A grid that does not have a magnitude where the spacing doubles is coarser than the
spacing there. -/
theorem spacing_lt_ten_pow {doublings : Nat} (hplaces : 5 ^ places < 2 ^ 53)
    (h : doublings + 55 ≤ finestPlaces - places) :
    4 * (2 ^ doublings * halfUnit) < 10 ^ (finestPlaces - places) := by
  have hpos : 0 < 2 ^ (doublings + 2) * halfUnit := Nat.mul_pos (Nat.two_pow_pos _) halfUnit_pos
  have hsplit : 5 ^ (finestPlaces - places) * 5 ^ places = halfUnit := by
    rw [← pow_add, Nat.sub_add_cancel (by omega), halfUnit_eq]
  refine Nat.lt_of_mul_lt_mul_right (a := 5 ^ places) ?_
  calc 4 * (2 ^ doublings * halfUnit) * 5 ^ places
      = 2 ^ (doublings + 2) * halfUnit * 5 ^ places := by ring
    _ < 2 ^ (doublings + 2) * halfUnit * 2 ^ 53 := Nat.mul_lt_mul_of_pos_left hplaces hpos
    _ = 2 ^ (doublings + 55) * halfUnit := by ring
    _ ≤ 2 ^ (finestPlaces - places) * halfUnit :=
        Nat.mul_le_mul_right _ (Nat.pow_le_pow_right (by decide) h)
    _ = 10 ^ (finestPlaces - places) * 5 ^ places := by rw [ten_pow_eq, mul_assoc, hsplit]

/-- Between two doublings of the spacing a magnitude is in the middle of its neighbourhood. -/
theorem value_ofRank_centred {doublings k : Nat} (hlow : 2 ^ 52 < k ∨ doublings = 0) (hpos : 0 < k)
    (hhigh : k < 2 ^ 53) :
    2 * (Neighbourhood.ofRank (doublings * 2 ^ 52 + k)).value =
      (Neighbourhood.ofRank (doublings * 2 ^ 52 + k)).low +
        (Neighbourhood.ofRank (doublings * 2 ^ 52 + k)).high := by
  obtain ⟨before, rfl⟩ : ∃ before, k = before + 1 := ⟨k - 1, by omega⟩
  have hbelow : units (doublings * 2 ^ 52 + before) = before * 2 ^ doublings :=
    units_eq_mul (by omega) (by omega)
  have hat : units (doublings * 2 ^ 52 + (before + 1)) = (before + 1) * 2 ^ doublings :=
    units_eq_mul (by omega) (by omega)
  have habove : units (doublings * 2 ^ 52 + (before + 2)) = (before + 2) * 2 ^ doublings :=
    units_eq_mul (by omega) (by omega)
  rw [Neighbourhood.ofRank, ← Nat.add_assoc, Nat.add_sub_cancel]
  simp only [Nat.add_assoc, hbelow, hat, habove]
  ring

/-- Where the spacing doubles, the neighbourhood is twice as long above the value. -/
theorem ofRank_doubling (doublings : Nat) :
    Neighbourhood.ofRank (doublings * 2 ^ 52 + 2 ^ 53) =
      ⟨(2 ^ 54 - 1) * (2 ^ doublings * halfUnit), 2 ^ 54 * (2 ^ doublings * halfUnit),
        (2 ^ 54 + 2) * (2 ^ doublings * halfUnit), true⟩ := by
  have hbelow : units (doublings * 2 ^ 52 + (2 ^ 53 - 1)) = (2 ^ 53 - 1) * 2 ^ doublings :=
    units_eq_mul (by omega) (by omega)
  have hat : units (doublings * 2 ^ 52 + 2 ^ 53) = 2 ^ 53 * 2 ^ doublings :=
    units_eq_mul (by omega) (by omega)
  have habove : units (doublings * 2 ^ 52 + 2 ^ 53 + 1) = (2 ^ 52 + 1) * 2 ^ (doublings + 1) := by
    rw [show doublings * 2 ^ 52 + 2 ^ 53 + 1 = (doublings + 1) * 2 ^ 52 + (2 ^ 52 + 1) by omega]
    exact units_eq_mul (by omega) (by omega)
  have hparity : ((doublings * 2 ^ 52 + 2 ^ 53) % 2 == 0) = true := beq_iff_eq.mpr (by omega)
  rw [Neighbourhood.ofRank, Nat.add_sub_assoc (by omega), hbelow, hat, habove, hparity,
    Neighbourhood.mk.injEq]
  generalize halfUnit = half
  refine ⟨?_, ?_, ?_, rfl⟩ <;> ring

theorem suitsGrid_ofRank (hrank : 0 < rank) (hplaces : 5 ^ places < 2 ^ 53) :
    (Neighbourhood.ofRank rank).SuitsGrid (10 ^ (finestPlaces - places)) := by
  obtain ⟨doublings, k, rfl, hlow, hhigh⟩ : ∃ doublings k, rank = doublings * 2 ^ 52 + k ∧
      (2 ^ 52 < k ∨ doublings = 0) ∧ k ≤ 2 ^ 53 :=
    ⟨(rank - 1) / 2 ^ 52 - 1, rank - ((rank - 1) / 2 ^ 52 - 1) * 2 ^ 52, by omega, by omega,
      by omega⟩
  rcases hhigh.lt_or_eq with hinside | rfl
  · exact .centred (value_ofRank_centred hlow (by omega) hinside)
  · by_cases hfine : finestPlaces - places ≤ doublings + 54
    · refine .onGrid ?_
      have hvalue : (Neighbourhood.ofRank (doublings * 2 ^ 52 + 2 ^ 53)).value =
          2 ^ (doublings + 54) * 5 ^ finestPlaces := by
        rw [ofRank_doubling, ← halfUnit_eq, pow_add]
        ring
      rw [hvalue, ten_pow_eq]
      exact Nat.mul_dvd_mul (pow_dvd_pow 2 hfine) (pow_dvd_pow 5 (Nat.sub_le _ _))
    · have hspacing := spacing_lt_ten_pow hplaces (Nat.lt_of_not_le hfine)
      rw [ofRank_doubling]
      generalize 2 ^ doublings * halfUnit = spacing at hspacing ⊢
      refine .narrow ?_ ?_ <;> dsimp only <;> omega

theorem places_le_finestPlaces (h : 5 ^ places < 2 ^ 53) : places ≤ finestPlaces := by
  by_contra hgt
  have hmono : 5 ^ 53 ≤ 5 ^ places :=
    Nat.pow_le_pow_right (by decide) (by unfold finestPlaces at hgt; omega)
  have hbound : 2 ^ 53 < 5 ^ 53 := by norm_num
  omega

/-- A magnitude whose shortest decimal has no more than the printed places is read back from
what is printed. -/
theorem toBinary64_printed {rank : Fin infinityRank} (hfits : (shortest rank).places ≤ places)
    (hplaces : 5 ^ places < 2 ^ 53) (negative : Bool) :
    (printed rank places).toBinary64 negative = .finite negative rank := by
  have hfinest := places_le_finestPlaces hplaces
  by_cases hzero : rank.val = 0
  · have hrank : rank = ⟨0, by decide⟩ := Fin.ext hzero
    have hprinted : printed 0 places = ⟨0, places⟩ := by simp [printed, roundHalfEven, units]
    rw [hzero, hprinted, toBinary64_zero, hrank, zero]
  · have hpos := Nat.pos_of_ne_zero hzero
    have hvalue := Neighbourhood.contains_value_ofRank hpos
    have hgrid : (shortest rank).onFinest = (shortest rank).coefficient *
        10 ^ (places - (shortest rank).places) * 10 ^ (finestPlaces - places) := by
      rw [onFinest, mul_assoc, ← pow_add]
      congr 2
      omega
    have hshortest := contains_shortest hpos
    rw [hgrid] at hshortest
    refine toBinary64_eq_finite_iff.mpr ((nearestRank_eq_iff_contains hfinest hpos).mpr ?_)
    rw [onFinest_printed hfinest]
    exact Neighbourhood.contains_nearest (Nat.pow_pos (by decide))
      (suitsGrid_ofRank hpos hplaces) hvalue hshortest

/-- With as many places as its shortest decimal has, no positive magnitude is printed as zero:
it is more than half of a last place. -/
theorem coefficient_printed_ne_zero {rank : Fin infinityRank} (hrank : rank.val ≠ 0)
    (hfits : (shortest rank).places ≤ places) : (printed rank places).coefficient ≠ 0 := by
  have hread := toBinary64_eq_finite_iff.mp (toBinary64_shortest false rank)
  have hcoefficient : 0 < (shortest rank).coefficient := by
    refine Nat.pos_of_ne_zero fun hzero => hrank ?_
    rw [← hread, hzero]
    simp [nearestRank, roundHalfEven]
  have hbelow : 2 * ((shortest rank).coefficient * unitsPerOne) ≤
      twiceHalfway rank * 10 ^ (shortest rank).places := by
    have hnearest := (nearestRank_le_iff _ (Nat.pow_pos (by decide)) rank.val).mp hread.le
    omega
  have hone : 2 * unitsPerOne ≤ 3 * (units rank * 10 ^ places) :=
    calc 2 * unitsPerOne ≤ 2 * ((shortest rank).coefficient * unitsPerOne) :=
          Nat.mul_le_mul_left 2 (Nat.le_mul_of_pos_left _ hcoefficient)
      _ ≤ twiceHalfway rank * 10 ^ (shortest rank).places := hbelow
      _ ≤ 3 * units rank * 10 ^ places :=
          Nat.mul_le_mul (twiceHalfway_le (Nat.pos_of_ne_zero hrank))
            (Nat.pow_le_pow_right (by decide) hfits)
      _ = 3 * (units rank * 10 ^ places) := mul_assoc _ _ _
  have hpos := unitsPerOne_pos
  rw [printed, ← Nat.pos_iff_ne_zero, ← Nat.not_le, roundHalfEven_le_iff _ hpos]
  omega

end PocketCalculator.Decimal
