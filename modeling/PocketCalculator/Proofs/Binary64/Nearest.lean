import Mathlib.Order.Monotone.Basic
import Mathlib.Tactic.NormNum
import Mathlib.Tactic.Ring
import PocketCalculator.Binary64.Basic

/-!
# The nearest magnitude

A quotient rounds to a rank or to one below exactly when it is on this side of the point
halfway to the next rank, or on that point and the rank is even. So every rank owns the
quotients from one halfway point to the next.
-/
namespace PocketCalculator.Binary64

/-! ## Magnitudes -/

theorem unitsPerOne_pos : 0 < unitsPerOne := by
  rw [unitsPerOne]
  positivity

theorem units_lt (rank : Nat) : units rank < 2 ^ 53 * 2 ^ (rank / 2 ^ 52 - 1) := by
  unfold units
  apply Nat.mul_lt_mul_of_pos_right _ (Nat.two_pow_pos _)
  omega

theorem units_lt_succ (rank : Nat) : units rank < units (rank + 1) := by
  by_cases hsame : (rank + 1) / 2 ^ 52 - 1 = rank / 2 ^ 52 - 1
  · unfold units
    rw [hsame]
    apply Nat.mul_lt_mul_of_pos_right _ (Nat.two_pow_pos _)
    omega
  · have hnext : (rank + 1) / 2 ^ 52 - 1 = rank / 2 ^ 52 - 1 + 1 := by omega
    refine (units_lt rank).trans_le ?_
    unfold units
    dsimp only
    rw [hnext]
    generalize rank / 2 ^ 52 - 1 = doublings at hnext
    have hstart : 2 ^ 52 ≤ rank + 1 - (doublings + 1) * 2 ^ 52 := by omega
    calc 2 ^ 53 * 2 ^ doublings = 2 ^ 52 * 2 ^ (doublings + 1) := by ring
      _ ≤ _ := Nat.mul_le_mul_right _ hstart

theorem units_lt_of_pos {rank : Nat} (h : 0 < rank) : units (rank - 1) < units rank := by
  have hstep := units_lt_succ (rank - 1)
  rwa [Nat.sub_add_cancel h] at hstep

theorem units_strictMono : StrictMono units := strictMono_nat_of_lt_succ units_lt_succ

theorem units_zero : units 0 = 0 := by simp [units]

/-- Between two doublings of the spacing the magnitudes are its multiples, and so is the next
one. -/
theorem units_eq_mul {doublings k : Nat} (hlow : 2 ^ 52 ≤ k ∨ doublings = 0)
    (hhigh : k ≤ 2 ^ 53) : units (doublings * 2 ^ 52 + k) = k * 2 ^ doublings := by
  unfold units
  dsimp only
  by_cases hlast : k = 2 ^ 53
  · have hnext : (doublings * 2 ^ 52 + k) / 2 ^ 52 - 1 = doublings + 1 := by omega
    rw [hnext, hlast, show doublings * 2 ^ 52 + 2 ^ 53 - (doublings + 1) * 2 ^ 52 = 2 ^ 52 by omega,
      pow_succ]
    ring
  · have hsame : (doublings * 2 ^ 52 + k) / 2 ^ 52 - 1 = doublings := by omega
    rw [hsame, Nat.add_sub_cancel_left]

/-- An integer of at most 53 binary digits, with any number of zeros after them, is the magnitude of
some rank, and so is the next power of two. -/
theorem exists_units_eq_mul {k : Nat} (hk : k ≤ 2 ^ 53) (doublings : Nat) :
    ∃ rank, units rank = k * 2 ^ doublings := by
  induction doublings generalizing k with
  | zero => exact ⟨_, units_eq_mul (Or.inr rfl) hk⟩
  | succ doublings ih =>
    by_cases hlow : 2 ^ 52 ≤ k
    · exact ⟨_, units_eq_mul (Or.inl hlow) hk⟩
    · obtain ⟨rank, hrank⟩ := @ih (k * 2) (by omega)
      exact ⟨rank, by rw [hrank, pow_succ', mul_assoc]⟩

theorem units_infinityRank : units infinityRank = 2 ^ 52 * 2 ^ 2046 := by
  have hrank : infinityRank = 2046 * 2 ^ 52 + 2 ^ 52 := by
    rw [infinityRank]
    omega
  rw [hrank]
  exact units_eq_mul (Or.inl (Nat.le_refl _)) (by norm_num)

/-- Twice the point halfway between a magnitude and the next one. -/
def twiceHalfway (rank : Nat) : Nat := units rank + units (rank + 1)

theorem twiceHalfway_eq_mul {doublings k : Nat} (hlow : 2 ^ 52 ≤ k ∨ doublings = 0)
    (hhigh : k < 2 ^ 53) :
    twiceHalfway (doublings * 2 ^ 52 + k) = (2 * k + 1) * 2 ^ doublings := by
  have hnext : 2 ^ 52 ≤ k + 1 ∨ doublings = 0 := by omega
  rw [twiceHalfway, units_eq_mul hlow hhigh.le, Nat.add_assoc, units_eq_mul hnext hhigh]
  ring

/-- A halfway point below the start of a stretch, and one beyond its end. -/
theorem twiceHalfway_lt {doublings rank : Nat} (h : rank < doublings * 2 ^ 52 + 2 ^ 52) :
    twiceHalfway rank < 2 * (2 ^ 52 * 2 ^ doublings) := by
  have hstart : units (doublings * 2 ^ 52 + 2 ^ 52) = 2 ^ 52 * 2 ^ doublings :=
    units_eq_mul (Or.inl (Nat.le_refl _)) (by norm_num)
  have hbelow := units_strictMono h
  have hnext : units (rank + 1) ≤ _ := units_strictMono.monotone h
  rw [hstart] at hbelow hnext
  rw [twiceHalfway]
  omega

theorem le_twiceHalfway {doublings rank : Nat} (h : doublings * 2 ^ 52 + 2 ^ 53 ≤ rank) :
    2 * (2 ^ 53 * 2 ^ doublings) ≤ twiceHalfway rank := by
  have hend : units (doublings * 2 ^ 52 + 2 ^ 53) = 2 ^ 53 * 2 ^ doublings :=
    units_eq_mul (Or.inl (by norm_num)) (Nat.le_refl _)
  have habove : _ ≤ units rank := units_strictMono.monotone h
  have hnext := units_lt_succ rank
  rw [hend] at habove
  rw [twiceHalfway]
  omega

/-- The halfway point above a positive magnitude is at most half as far again from zero. -/
theorem twiceHalfway_le {rank : Nat} (h : 0 < rank) : twiceHalfway rank ≤ 3 * units rank := by
  obtain ⟨doublings, k, rfl, hlow, hpos, hhigh⟩ : ∃ doublings k, rank = doublings * 2 ^ 52 + k ∧
      (2 ^ 52 ≤ k ∨ doublings = 0) ∧ 0 < k ∧ k < 2 ^ 53 :=
    ⟨rank / 2 ^ 52 - 1, rank - (rank / 2 ^ 52 - 1) * 2 ^ 52, by omega, by omega, by omega,
      by omega⟩
  rw [twiceHalfway_eq_mul hlow hhigh, units_eq_mul hlow hhigh.le, ← mul_assoc]
  exact Nat.mul_le_mul_right _ (by omega)

/-! ## The nearest integer -/

/-- A quotient rounds to an integer or to one below exactly when it is nearer to that integer
than to the next one, or as near and the integer is even. -/
theorem roundHalfEven_le_iff (num : Nat) {den : Nat} (hden : 0 < den) (k : Nat) :
    roundHalfEven num den ≤ k ↔
      2 * num < (2 * k + 1) * den ∨ k % 2 = 0 ∧ 2 * num = (2 * k + 1) * den := by
  have hdiv := Nat.div_add_mod num den
  have hmod := Nat.mod_lt num hden
  have hbound : (2 * k + 1) * den = 2 * (den * k) + den := by ring
  unfold roundHalfEven
  dsimp only
  rw [hbound]
  rcases Nat.lt_trichotomy (num / den) k with hlt | heq | hgt
  · have hle : den * (num / den) + den ≤ den * k := by
      rw [← Nat.mul_succ]
      exact Nat.mul_le_mul_left den hlt
    split_ifs <;> omega
  · rw [heq] at hdiv ⊢
    split_ifs <;> omega
  · have hle : den * k + den ≤ den * (num / den) := by
      rw [← Nat.mul_succ]
      exact Nat.mul_le_mul_left den hgt
    split_ifs <;> omega

theorem roundHalfEven_le (num den : Nat) : roundHalfEven num den ≤ num / den + 1 := by
  unfold roundHalfEven
  dsimp only
  split_ifs <;> omega

theorem le_roundHalfEven (num den : Nat) : num / den ≤ roundHalfEven num den := by
  unfold roundHalfEven
  dsimp only
  split_ifs <;> omega

theorem roundHalfEven_near (num : Nat) {den : Nat} (hden : 0 < den) :
    2 * num ≤ 2 * (roundHalfEven num den * den) + den ∧
      2 * (roundHalfEven num den * den) ≤ 2 * num + den := by
  have hdiv := Nat.div_add_mod num den
  have hmod := Nat.mod_lt num hden
  rw [mul_comm] at hdiv
  have hnext : (num / den + 1) * den = num / den * den + den := Nat.succ_mul _ _
  unfold roundHalfEven
  dsimp only
  split_ifs <;> omega

/-! ## The nearest rank -/

/-- A quotient has at most 53 binary digits beyond its doublings. -/
theorem lt_two_pow_doublings (quotient : Nat) :
    quotient < 2 ^ 53 * 2 ^ (quotient.log2 - 52) := by
  rw [← pow_add]
  exact Nat.lt_log2_self.trans_le (Nat.pow_le_pow_right (by decide) (by omega))

theorem two_pow_doublings_le {quotient : Nat} (h : quotient.log2 - 52 ≠ 0) :
    2 ^ 52 * 2 ^ (quotient.log2 - 52) ≤ quotient := by
  have hlog : 52 + (quotient.log2 - 52) = quotient.log2 := by omega
  rw [← pow_add, hlog]
  refine Nat.log2_self_le ?_
  rintro rfl
  simp at h

/-- A quotient rounds to a rank or to one below exactly when it is nearer to that rank than to
the next one, or as near and the rank is even. -/
theorem nearestRank_le_iff (num : Nat) {den : Nat} (hden : 0 < den) (rank : Nat) :
    nearestRank num den ≤ rank ↔
      2 * num < twiceHalfway rank * den ∨
        rank % 2 = 0 ∧ 2 * num = twiceHalfway rank * den := by
  have hnum : num < (num / den + 1) * den := by
    rw [mul_comm]
    exact Nat.lt_mul_div_succ num hden
  have hdiv : num / den * den ≤ num := Nat.div_mul_le_self num den
  have hbelow := lt_two_pow_doublings (num / den)
  have habove := @two_pow_doublings_le (num / den)
  unfold nearestRank
  dsimp only
  obtain ⟨d, hd⟩ : ∃ d, (num / den).log2 - 52 = d := ⟨_, rfl⟩
  rw [hd] at hbelow habove ⊢
  have hround := roundHalfEven_le num (den * 2 ^ d)
  have hround' := le_roundHalfEven num (den * 2 ^ d)
  rw [← Nat.div_div_eq_div_mul] at hround hround'
  by_cases hstart : d ≠ 0 ∧ rank < d * 2 ^ 52 + 2 ^ 52
  · -- The quotient is at least the magnitude that starts the stretch, and the rank is below.
    have hquotient := habove hstart.1
    have hscaled := (Nat.le_div_iff_mul_le (Nat.two_pow_pos d)).mpr hquotient
    have hmul : twiceHalfway rank * den < 2 * (num / den * den) := by
      rw [← mul_assoc]
      exact Nat.mul_lt_mul_of_pos_right
        ((twiceHalfway_lt hstart.2).trans_le (Nat.mul_le_mul_left 2 hquotient)) hden
    refine iff_of_false ?_ ?_ <;> omega
  · by_cases hend : d * 2 ^ 52 + 2 ^ 53 ≤ rank
    · -- The quotient is below the magnitude that ends the stretch, and the rank is beyond that.
      have hscaled := Nat.div_lt_of_lt_mul (hbelow.trans_eq (mul_comm _ _))
      have hmul : 2 * ((num / den + 1) * den) ≤ twiceHalfway rank * den := by
        rw [← mul_assoc]
        exact Nat.mul_le_mul_right den
          ((Nat.mul_le_mul_left 2 hbelow).trans (le_twiceHalfway hend))
      refine iff_of_true ?_ ?_ <;> omega
    · -- Within the stretch the magnitudes are multiples of the spacing, so this is rounding to an
      -- integer.
      obtain ⟨k, rfl⟩ : ∃ k, rank = d * 2 ^ 52 + k := ⟨rank - d * 2 ^ 52, by omega⟩
      have hrounded := roundHalfEven_le_iff num (Nat.mul_pos hden (Nat.two_pow_pos d)) k
      have hpoint : (2 * k + 1) * (den * 2 ^ d) = (2 * k + 1) * 2 ^ d * den := by ring
      have hparity : (d * 2 ^ 52 + k) % 2 = k % 2 := by omega
      rw [Nat.add_le_add_iff_left, hrounded, twiceHalfway_eq_mul (by omega) (by omega), hpoint,
        hparity]

/-- The quotients nearest to a magnitude lie between its halfway points, of which an even rank
has both and an odd one neither. -/
theorem nearestRank_eq_iff (num : Nat) {den rank : Nat} (hden : 0 < den) (hrank : 0 < rank) :
    nearestRank num den = rank ↔
      (twiceHalfway (rank - 1) * den < 2 * num ∨
        rank % 2 = 0 ∧ twiceHalfway (rank - 1) * den = 2 * num) ∧
      (2 * num < twiceHalfway rank * den ∨
        rank % 2 = 0 ∧ 2 * num = twiceHalfway rank * den) := by
  have hle := nearestRank_le_iff num hden rank
  have hbelow := nearestRank_le_iff num hden (rank - 1)
  omega

/-! ## Quotients of the same value -/

theorem roundHalfEven_mul_right (num den : Nat) {scale : Nat} (h : 0 < scale) :
    roundHalfEven (num * scale) (den * scale) = roundHalfEven num den := by
  have hlt : 2 * (num % den * scale) < den * scale ↔ 2 * (num % den) < den := by
    rw [← mul_assoc]
    exact Nat.mul_lt_mul_right h
  have hgt : den * scale < 2 * (num % den * scale) ↔ den < 2 * (num % den) := by
    rw [← mul_assoc]
    exact Nat.mul_lt_mul_right h
  unfold roundHalfEven
  simp only [Nat.mul_div_mul_right num den h, Nat.mul_mod_mul_right scale num den, hlt, hgt]

theorem nearestRank_mul_right (num den : Nat) {scale : Nat} (h : 0 < scale) :
    nearestRank (num * scale) (den * scale) = nearestRank num den := by
  unfold nearestRank
  simp only [Nat.mul_div_mul_right num den h, mul_right_comm den scale,
    roundHalfEven_mul_right _ _ h]

theorem ofUnits_mul_right (negative : Bool) (num den : Nat) {scale : Nat} (h : 0 < scale) :
    ofUnits negative (num * scale) (den * scale) = ofUnits negative num den := by
  unfold ofUnits
  simp only [nearestRank_mul_right num den h]

end PocketCalculator.Binary64
