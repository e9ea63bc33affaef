import Mathlib.Algebra.Order.Floor.Semifield
import Mathlib.Data.Nat.Cast.Field
import Mathlib.Data.Rat.Floor
import PocketCalculator.Proofs.Binary64.Value
import PocketCalculator.Proofs.Decimal.Rounding

/-!
# Decimals by their values

A decimal is read by its value alone, and as a number near to it. A number that is near enough
to a decimal with few places is rounded to that decimal.
-/
namespace PocketCalculator

namespace Decimal

open Binary64

/-- The rational number that a decimal is. -/
def value (d : Decimal) : ℚ := d.coefficient / 10 ^ d.places

variable {d e : Decimal} {negative : Bool} {places : Nat}

theorem value_nonneg (d : Decimal) : 0 ≤ d.value := by
  rw [value]
  positivity

theorem value_eq_div (d : Decimal) : d.value =
    ((d.coefficient * unitsPerOne : Nat) : ℚ) / (10 ^ d.places : Nat) / unitsPerOne := by
  rw [Nat.cast_mul, Nat.cast_pow, Nat.cast_ofNat, value, div_right_comm,
    mul_div_cancel_right₀ _ unitsPerOne_cast_pos.ne']

theorem value_toBinary64_near (h : (d.toBinary64 negative).isFinite = true) :
    |(d.toBinary64 negative).value - signed negative d.value| ≤ halfSpacing d.value := by
  have hnear := value_ofUnits_near (Nat.pow_pos (by decide) : 0 < 10 ^ d.places) h
  rwa [← value_eq_div] at hnear

theorem toBinary64_congr (h : d.value = e.value) (negative : Bool) :
    d.toBinary64 negative = e.toBinary64 negative := by
  have hcross : d.coefficient * 10 ^ e.places = e.coefficient * 10 ^ d.places := by
    rw [value, value, div_eq_div_iff (by positivity) (by positivity)] at h
    exact_mod_cast h
  have hd : 0 < 10 ^ d.places := Nat.pow_pos (by decide)
  have he : 0 < 10 ^ e.places := Nat.pow_pos (by decide)
  rw [toBinary64, toBinary64, ← ofUnits_mul_right negative _ _ he, mul_right_comm, hcross,
    ← ofUnits_mul_right negative (e.coefficient * unitsPerOne) _ hd, mul_right_comm,
    mul_comm (10 ^ d.places)]

/-! ## Rounding -/

theorem value_mul_of_places_le (h : d.places ≤ places) :
    d.value * 10 ^ places = (d.coefficient * 10 ^ (places - d.places) : Nat) := by
  have hpow : (10 : ℚ) ^ places = 10 ^ (places - d.places) * 10 ^ d.places := by
    rw [← pow_add, Nat.sub_add_cancel h]
  rw [value, hpow, Nat.cast_mul, Nat.cast_pow, Nat.cast_ofNat]
  field_simp

theorem value_mul_of_places_lt (h : places < d.places) :
    d.value * 10 ^ places = d.coefficient / (10 ^ (d.places - places) : Nat) := by
  obtain ⟨more, hmore⟩ : ∃ more, d.places = places + more := ⟨_, (Nat.add_sub_cancel' h.le).symm⟩
  rw [value, hmore, Nat.add_sub_cancel_left, pow_add, Nat.cast_pow, Nat.cast_ofNat]
  field_simp

theorem floor_add_half_of_near {q : ℚ} {k : Nat} (h : |q - k| < 1 / 2) : ⌊q + 1 / 2⌋₊ = k := by
  obtain ⟨hlow, hhigh⟩ := abs_lt.mp h
  have hk : (0 : ℚ) ≤ k := Nat.cast_nonneg k
  rw [Nat.floor_eq_iff (by linarith)]
  constructor <;> linarith

/-- Rounding to fewer places gives the whole number of last places below half of one more. -/
theorem coefficient_roundHalfUp (h : places < d.places) :
    (d.roundHalfUp places).coefficient = ⌊d.value * 10 ^ places + 1 / 2⌋₊ := by
  obtain ⟨unit, hunit⟩ : ∃ unit, 10 ^ (d.places - places) = unit := ⟨_, rfl⟩
  have hpos : (0 : ℚ) < unit := Nat.cast_pos.mpr (hunit ▸ Nat.pow_pos (by decide))
  have heven : ((unit / 2 : Nat) : ℚ) = unit / 2 :=
    Nat.cast_div (hunit ▸ dvd_pow (by decide) (Nat.sub_ne_zero_of_lt h)) two_ne_zero
  have hhalf : (d.coefficient : ℚ) / unit + 1 / 2 = (d.coefficient + unit / 2 : Nat) / unit := by
    rw [Nat.cast_add, heven]
    field_simp
  rw [value_mul_of_places_lt h, roundHalfUp, if_neg (Nat.not_le_of_lt h), hunit, hhalf,
    Nat.floor_div_eq_div]

theorem value_roundHalfUp_eq_floor (d : Decimal) (places : Nat) :
    (d.roundHalfUp places).value = ⌊d.value * 10 ^ places + 1 / 2⌋₊ / 10 ^ places := by
  by_cases h : d.places ≤ places
  · have hvalue := value_mul_of_places_le h
    rw [roundHalfUp_of_places_le h, hvalue,
      floor_add_half_of_near (by rw [sub_self, abs_zero]; norm_num)]
    exact eq_div_of_mul_eq (by positivity) hvalue
  · rw [value, places_roundHalfUp h, coefficient_roundHalfUp (Nat.lt_of_not_le h)]

/-- A decimal that is nearer than half of a last place is rounded to. -/
theorem value_roundHalfUp {k : Nat} (h : |d.value * 10 ^ places - k| < 1 / 2) :
    (d.roundHalfUp places).value = (⟨k, places⟩ : Decimal).value := by
  rw [value_roundHalfUp_eq_floor, floor_add_half_of_near h, value]

theorem value_roundHalfUp_of_whole {n : Nat} (h : d.value * 10 ^ places = n) :
    (d.roundHalfUp places).value = d.value := by
  have hnear : |d.value * 10 ^ places - n| < 1 / 2 := by
    rw [h, sub_self, abs_zero]
    norm_num
  rw [value_roundHalfUp hnear, value, ← h]
  exact mul_div_cancel_right₀ _ (by positivity)

theorem value_shortest_near (rank : Fin infinityRank) :
    |magnitude rank - (shortest rank).value| ≤ halfSpacing (shortest rank).value := by
  have hread := toBinary64_shortest false rank
  have hfinite : ((shortest rank).toBinary64 false).isFinite = true := by
    rw [hread]
    rfl
  have hnear := value_toBinary64_near hfinite
  rwa [hread] at hnear

end Decimal

/-- A number is rounded through its shortest decimal, whether or not that has more places. -/
theorem Binary64.roundHalfAway_finite (negative : Bool) (rank : Fin infinityRank) (places : Nat) :
    (finite negative rank).roundHalfAway places =
      (((Decimal.shortest rank).roundHalfUp places).toBinary64 negative).dropZeroSign := by
  rw [roundHalfAway_eq_ite]
  split
  · rename_i hplaces
    rw [Decimal.roundHalfUp_of_places_le hplaces, Decimal.toBinary64_shortest]
  · rfl

end PocketCalculator
