import Mathlib.Tactic.NormNum
import Mathlib.Tactic.Ring
import PocketCalculator.Decimal.Shortest
import PocketCalculator.Proofs.Binary64.Nearest

/-!
# Neighbourhoods of magnitudes

A neighbourhood has no gaps and contains its value. So a grid that has any point in it has one
next to the value, and the search for the coarsest grid ends with a point of the neighbourhood.
-/
namespace PocketCalculator.Decimal

open Binary64

theorem halfUnit_pos : 0 < halfUnit := by
  rw [halfUnit]
  positivity

namespace Neighbourhood

variable {s : Neighbourhood} {step point : Nat}

/-- How far the points of the neighbourhood keep from its ends. -/
def margin (s : Neighbourhood) : Nat := if s.closed then 0 else 1

theorem contains_iff : s.contains point = true ↔
    s.low + s.margin ≤ point ∧ point + s.margin ≤ s.high := by
  unfold contains margin
  cases s.closed with
  | false =>
    simp only [Bool.false_eq_true, ↓reduceIte, Bool.and_eq_true, decide_eq_true_eq,
      Nat.lt_iff_add_one_le]
  | true => simp only [↓reduceIte, Bool.and_eq_true, decide_eq_true_eq, Nat.add_zero]

/-! ## Points next to the value -/

theorem contains_of_between {p q : Nat} (hp : s.contains p = true) (hq : s.contains q = true)
    (hlow : p ≤ point) (hhigh : point ≤ q) : s.contains point = true := by
  rw [contains_iff] at hp hq ⊢
  omega

/-- A grid with a point in the neighbourhood has one next to the value. -/
theorem isSome_pointOn (hvalue : s.contains s.value = true) (hstep : 0 < step)
    {multiple : Nat} (h : s.contains (multiple * step) = true) :
    (s.pointOn step).isSome = true := by
  have hdiv := Nat.div_add_mod s.value step
  have hmod := Nat.mod_lt s.value hstep
  rw [mul_comm] at hdiv
  have hnext : s.contains (s.value / step * step) = true ∨
      s.contains (s.value / step * step + step) = true := by
    rcases Nat.lt_or_ge (s.value / step) multiple with hlt | hle
    · have hmul := Nat.mul_le_mul_right step hlt
      rw [Nat.succ_mul] at hmul
      exact Or.inr (contains_of_between hvalue h (by omega) hmul)
    · have hmul := Nat.mul_le_mul_right step hle
      exact Or.inl (contains_of_between h hvalue hmul (by omega))
  unfold pointOn
  dsimp only
  split
  · split <;> rfl
  · rfl
  · rfl
  · rename_i hbelow habove
    rw [hbelow, habove] at hnext
    simp at hnext

theorem pointOn_spec (h : s.pointOn step = some point) :
    s.contains point = true ∧ step ∣ point := by
  have hbelow : step ∣ s.value / step * step := Nat.dvd_mul_left _ _
  have habove : step ∣ s.value / step * step + step := (Nat.dvd_add_self_right).mpr hbelow
  unfold pointOn at h
  dsimp only at h
  split at h
  · rename_i hcb hca
    split at h <;> cases h
    · exact ⟨hcb, hbelow⟩
    · exact ⟨hca, habove⟩
  · rename_i hcb hca
    cases h
    exact ⟨hcb, hbelow⟩
  · rename_i hcb hca
    cases h
    exact ⟨hca, habove⟩
  · cases h

/-! ## The chosen grid -/

theorem coarsest_spec (hvalue : s.contains s.value = true) (exponent : Nat) :
    s.contains (s.coarsest exponent).2 = true ∧
      10 ^ (s.coarsest exponent).1 ∣ (s.coarsest exponent).2 := by
  induction exponent with
  | zero => exact ⟨hvalue, by simp [coarsest]⟩
  | succ exponent ih =>
    unfold coarsest
    split
    · rename_i point hpoint
      exact pointOn_spec hpoint
    · exact ih

theorem le_coarsest {k exponent : Nat} (hk : k ≤ exponent)
    (hpoint : (s.pointOn (10 ^ k)).isSome = true) : k ≤ (s.coarsest exponent).1 := by
  induction exponent with
  | zero => omega
  | succ exponent ih =>
    unfold coarsest
    split
    · exact hk
    · rename_i hnone
      apply ih
      by_contra hgt
      have heq : k = exponent + 1 := by omega
      rw [heq, hnone] at hpoint
      cases hpoint

/-! ## The neighbourhood of a rank -/

variable {rank : Nat}

theorem margin_ofRank (rank : Nat) : (ofRank rank).margin = rank % 2 := by
  have hparity := Nat.mod_two_eq_zero_or_one rank
  unfold margin ofRank
  dsimp only
  split <;> simp_all

theorem low_ofRank (h : 0 < rank) :
    (ofRank rank).low = twiceHalfway (rank - 1) * halfUnit := by
  rw [twiceHalfway, Nat.sub_add_cancel h]
  rfl

theorem high_ofRank (rank : Nat) : (ofRank rank).high = twiceHalfway rank * halfUnit := rfl

theorem low_ofRank_pos (h : 0 < rank) : 0 < (ofRank rank).low := by
  have hgrows := units_lt_of_pos h
  rw [low_ofRank h, twiceHalfway, Nat.sub_add_cancel h]
  exact Nat.mul_pos (by omega) halfUnit_pos

theorem contains_value_ofRank (h : 0 < rank) :
    (ofRank rank).contains (ofRank rank).value = true := by
  have hbelow := units_lt_of_pos h
  have habove := units_lt_succ rank
  have hmargin := margin_ofRank rank
  have hlow : (ofRank rank).low < (ofRank rank).value := by
    change (units (rank - 1) + units rank) * halfUnit < 2 * units rank * halfUnit
    exact Nat.mul_lt_mul_of_pos_right (by omega) halfUnit_pos
  have hhigh : (ofRank rank).value < (ofRank rank).high := by
    change 2 * units rank * halfUnit < (units rank + units (rank + 1)) * halfUnit
    exact Nat.mul_lt_mul_of_pos_right (by omega) halfUnit_pos
  rw [contains_iff]
  omega

theorem high_ofRank_lt {doublings : Nat} (h : rank / 2 ^ 52 - 1 < doublings) :
    (ofRank rank).high < 2 ^ 54 * 2 ^ doublings * halfUnit := by
  have hbelow : units rank < 2 ^ 53 * 2 ^ doublings :=
    (units_lt rank).trans_le
      (Nat.mul_le_mul_left _ (Nat.pow_le_pow_right (by decide) (by omega)))
  have habove : units (rank + 1) < 2 ^ 53 * 2 ^ doublings :=
    (units_lt (rank + 1)).trans_le
      (Nat.mul_le_mul_left _ (Nat.pow_le_pow_right (by decide) (by omega)))
  have hsum : units rank + units (rank + 1) < 2 ^ 54 * 2 ^ doublings := by omega
  exact Nat.mul_lt_mul_of_pos_right hsum halfUnit_pos

end Neighbourhood

end PocketCalculator.Decimal
