import PocketCalculator.Proofs.Binary64.Value

/-!
# Integers among the numbers

Every integer of at most 2 ^ 53 is a magnitude, and a magnitude is nearest to itself. So an
operation whose exact result is such an integer gives that integer.
-/
namespace PocketCalculator.Binary64

/-- A finite number with the value of an integer. Zero may have either sign. -/
structure IsInteger (n : ℤ) (x : Binary64) : Prop where
  isFinite : x.isFinite = true
  value_eq : x.value = n

variable {x y : Binary64} {m n : ℤ} {negative : Bool} {rank : Fin infinityRank}

/-! ## Magnitudes -/

theorem nearestRank_units {den : Nat} (hden : 0 < den) (rank : Nat) :
    nearestRank (units rank * den) den = rank := by
  refine le_antisymm ?_ ?_
  · rw [nearestRank_le_iff _ hden, twiceHalfway]
    left
    rw [← mul_assoc]
    refine Nat.mul_lt_mul_of_pos_right ?_ hden
    have habove := units_lt_succ rank
    omega
  · by_contra hlt
    have hrank : 0 < rank := by omega
    have hbelow := units_lt_of_pos hrank
    have hle := (nearestRank_le_iff (units rank * den) hden (rank - 1)).mp (by omega)
    have hgreat : twiceHalfway (rank - 1) * den < 2 * (units rank * den) := by
      rw [twiceHalfway, Nat.sub_add_cancel hrank, ← mul_assoc]
      exact Nat.mul_lt_mul_of_pos_right (by omega) hden
    omega

/-- An integer has a magnitude if it takes no more than 53 binary digits, or is the next power of
two. -/
theorem exists_units_eq {k : Nat} (hk : k ≤ 2 ^ 53) :
    ∃ rank : Fin infinityRank, units rank = k * unitsPerOne := by
  obtain ⟨rank, hrank⟩ := exists_units_eq_mul hk 1074
  have hpower {m n : Nat} (h : 53 + m < 52 + n) : 2 ^ 53 * 2 ^ m < 2 ^ 52 * 2 ^ n := by
    rw [← pow_add, ← pow_add]
    exact Nat.pow_lt_pow_right Nat.one_lt_two h
  have hrange : units rank < units infinityRank := by
    rw [hrank, units_infinityRank]
    exact (Nat.mul_le_mul_right _ hk).trans_lt (hpower (by norm_num))
  exact ⟨⟨rank, units_strictMono.lt_iff_lt.mp hrange⟩, by rw [hrank, unitsPerOne_eq]⟩

/-- An exact integer is left alone by rounding. -/
theorem isInteger_ofUnits {num den : Nat} (hden : 0 < den) (hn : |n| ≤ 2 ^ 53)
    (hnum : num = n.natAbs * unitsPerOne * den) (hsign : signed negative n.natAbs = n) :
    IsInteger n (ofUnits negative num den) := by
  rw [← Int.natCast_natAbs] at hn
  obtain ⟨rank, hrank⟩ := exists_units_eq (by exact_mod_cast hn : n.natAbs ≤ 2 ^ 53)
  have hread : ofUnits negative num den = finite negative rank := by
    have hnearest : nearestRank num den = rank := by
      rw [hnum, ← hrank, nearestRank_units hden]
    unfold ofUnits
    dsimp only
    rw [dif_pos (by rw [hnearest]; exact rank.isLt)]
    congr 1
    exact Fin.ext hnearest
  refine ⟨by rw [hread]; rfl, ?_⟩
  rw [hread, value, magnitude, hrank, Nat.cast_mul,
    mul_div_cancel_right₀ _ unitsPerOne_cast_pos.ne', hsign]

/-! ## The parts of an integer -/

theorem IsInteger.units_eq (h : IsInteger n (finite negative rank)) :
    units rank = n.natAbs * unitsPerOne ∧ signed negative n.natAbs = n := by
  have hvalue : signed negative (magnitude rank) = n := h.value_eq
  have hmagnitude : magnitude rank = n.natAbs := by
    have hnonneg : 0 ≤ magnitude rank := by
      rw [magnitude]
      positivity
    rw [Nat.cast_natAbs, Int.cast_abs, ← hvalue, abs_signed, abs_of_nonneg hnonneg]
  refine ⟨?_, by rw [← hmagnitude, hvalue]⟩
  rw [magnitude, div_eq_iff unitsPerOne_cast_pos.ne'] at hmagnitude
  exact_mod_cast hmagnitude

theorem IsInteger.exists_eq_finite (h : IsInteger n x) :
    ∃ negative rank, x = finite negative rank := by
  cases x with
  | nan => cases h.isFinite
  | infinity negative => cases h.isFinite
  | finite negative rank => exact ⟨negative, rank, rfl⟩

theorem IsInteger.isZero_eq_false (h : IsInteger n x) (hn : n ≠ 0) : x.isZero = false := by
  by_contra hzero
  have hvalue := value_of_isZero (Bool.eq_true_of_not_eq_false hzero)
  rw [h.value_eq] at hvalue
  exact hn (by exact_mod_cast hvalue)

/-! ## Operations -/

theorem signed_bne {s t : Bool} (hs : signed s m.natAbs = m) (ht : signed t n.natAbs = n) :
    signed (s != t) (m * n).natAbs = (m * n : ℤ) := by
  have hproduct : ∀ a b : ℚ, signed (s != t) (a * b) = signed s a * signed t b := by
    intro a b
    cases s <;> cases t <;> simp [signed]
  rw [Int.natAbs_mul, Nat.cast_mul, hproduct, hs, ht, Int.cast_mul]

theorem signed_bne_of_mul {s t : Bool} {q : ℤ} (hn : n ≠ 0)
    (hs : signed s (q * n).natAbs = (q * n : ℤ)) (ht : signed t n.natAbs = n) :
    signed (s != t) q.natAbs = q := by
  have hsquare : (0 : ℚ) < n.natAbs * n.natAbs := by positivity
  refine mul_right_cancel₀ hsquare.ne' ?_
  have hproduct := signed_bne hs ht
  rw [Int.natAbs_mul, Int.natAbs_mul, Nat.cast_mul, Nat.cast_mul, mul_assoc, signed_mul] at hproduct
  rw [hproduct, Nat.cast_natAbs, Int.cast_abs, abs_mul_abs_self, Int.cast_mul,
    Int.cast_mul, mul_assoc]

namespace IsInteger

theorem neg (hx : IsInteger n x) : IsInteger (-n) x.neg where
  isFinite := (isFinite_neg x).trans hx.isFinite
  value_eq := by rw [value_neg, hx.value_eq, Int.cast_neg]

theorem add (hx : IsInteger m x) (hy : IsInteger n y) (h : |m + n| ≤ 2 ^ 53) :
    IsInteger (m + n) (x.add y) := by
  obtain ⟨sum, hvalue, hadd⟩ := exists_sum hx.isFinite hy.isFinite
  have hsum : sum = (m + n) * unitsPerOne := by
    rw [hx.value_eq, hy.value_eq, eq_div_iff unitsPerOne_cast_pos.ne'] at hvalue
    exact_mod_cast hvalue.symm
  rcases hadd with ⟨hzero, negative, hadd⟩ | hadd
  · have hone : (unitsPerOne : ℤ) ≠ 0 := by exact_mod_cast unitsPerOne_pos.ne'
    have hcancel : m + n = 0 := (mul_eq_zero.mp (hsum.symm.trans hzero)).resolve_right hone
    rw [hadd, hcancel]
    exact ⟨rfl, by rw [value_zero, Int.cast_zero]⟩
  · have hone : (0 : ℤ) < unitsPerOne := by exact_mod_cast unitsPerOne_pos
    have hsign : sum < 0 ↔ m + n < 0 := by
      rw [hsum, mul_neg_iff]
      constructor
      · rintro (⟨_, hneg⟩ | ⟨hneg, _⟩) <;> omega
      · exact fun hneg => Or.inr ⟨hneg, hone⟩
    rw [hadd]
    refine isInteger_ofUnits Nat.one_pos h ?_ ?_
    · rw [hsum, Int.natAbs_mul, Int.natAbs_natCast, mul_one]
    · rw [decide_eq_decide.mpr hsign, signed_natAbs]

theorem sub (hx : IsInteger m x) (hy : IsInteger n y) (h : |m - n| ≤ 2 ^ 53) :
    IsInteger (m - n) (x.sub y) := by
  rw [sub_eq_add_neg] at h ⊢
  exact hx.add hy.neg h

theorem mul (hx : IsInteger m x) (hy : IsInteger n y) (h : |m * n| ≤ 2 ^ 53) :
    IsInteger (m * n) (x.mul y) := by
  obtain ⟨s, a, rfl⟩ := hx.exists_eq_finite
  obtain ⟨t, b, rfl⟩ := hy.exists_eq_finite
  obtain ⟨hm, hs⟩ := hx.units_eq
  obtain ⟨hn, ht⟩ := hy.units_eq
  rw [Binary64.mul]
  refine isInteger_ofUnits unitsPerOne_pos h ?_ ?_
  · rw [hm, hn, Int.natAbs_mul]
    ring
  · exact signed_bne hs ht

theorem div {q : ℤ} (hx : IsInteger (q * n) x) (hy : IsInteger n y) (hn : n ≠ 0)
    (h : |q| ≤ 2 ^ 53) : IsInteger q (x.div y) := by
  obtain ⟨s, a, rfl⟩ := hx.exists_eq_finite
  obtain ⟨t, b, rfl⟩ := hy.exists_eq_finite
  obtain ⟨hm, hs⟩ := hx.units_eq
  obtain ⟨hb, ht⟩ := hy.units_eq
  have hpos : 0 < n.natAbs * unitsPerOne := Nat.mul_pos (Int.natAbs_pos.mpr hn) unitsPerOne_pos
  have hnonzero : b.val ≠ 0 := by
    intro hzero
    rw [hzero, units_zero] at hb
    omega
  rw [Binary64.div, if_neg hnonzero]
  refine isInteger_ofUnits (hb ▸ hpos) h ?_ ?_
  · rw [hm, hb, Int.natAbs_mul]
    ring
  · exact signed_bne_of_mul hn hs ht

end IsInteger

end PocketCalculator.Binary64
