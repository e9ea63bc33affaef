import PocketCalculator.Proofs.Decimal.HalfAway
import PocketCalculator.Proofs.Decimal.Scaled

/-!
# Displays show rounded decimals

The digits on a display are printed from a binary number, and not from the decimal that was rounded
to. As long as there are fewer than 2 ^ 52 last places, the number is so near to that decimal that
the digits are the same.
-/
namespace PocketCalculator

/-- An integer from its magnitude. -/
def signedInt (negative : Bool) (k : Nat) : ℤ := if negative then -k else k

theorem natAbs_signedInt (negative : Bool) (k : Nat) : (signedInt negative k).natAbs = k := by
  cases negative with
  | false => exact Int.natAbs_natCast k
  | true => exact (Int.natAbs_neg k).trans (Int.natAbs_natCast k)

theorem decide_signedInt_lt_zero (negative : Bool) (k : Nat) :
    decide (signedInt negative k < 0) = (negative && decide (0 < k)) := by
  cases negative with
  | false => exact decide_eq_false (not_lt_of_ge (Int.natCast_nonneg k))
  | true => simp [signedInt]

namespace Binary64

/-- A number that is rounded to fewer than 2 ^ 52 last places is shown by the digits of these. -/
theorem displayText_of_rounded {rank : Fin infinityRank} {places k : Nat}
    (hplaces : places ≤ Settings.maxPrecision)
    (hrounded : ((Decimal.shortest rank).roundHalfUp places).value =
      (⟨k, places⟩ : Decimal).value)
    (hk : k < 2 ^ 52) (negative : Bool) :
    (finite negative rank).displayText places =
      withSign (negative && decide (0 < k)) (Decimal.text ⟨k, places⟩) := by
  have hnatAbs := natAbs_signedInt negative k
  have hsign := decide_signedInt_lt_zero negative k
  have hbound : |signedInt negative k| < 2 ^ 52 := by
    rw [Int.abs_eq_natAbs, hnatAbs]
    exact_mod_cast hk
  have hsame : signedInt negative k ≠ 0 → negative = decide (signedInt negative k < 0) := by
    intro hzero
    have hpos : 0 < k := by
      rw [← hnatAbs]
      exact Int.natAbs_pos.mpr hzero
    rw [hsign, decide_eq_true hpos, Bool.and_true]
  have hread := dropZeroSign_toBinary64 hplaces hbound hsame
  rw [hnatAbs, ← Decimal.toBinary64_congr hrounded, ← roundHalfAway_finite] at hread
  rw [displayText, hread, fixedText_ofScaled hplaces hbound, hnatAbs, hsign]

/-- Let `exact` be what the shortest decimal text of a number stands for, and `k` the number of
last places nearest to it, a half going up. If `k` is below 2 ^ 52 the display shows the digits of
`k` last places, after a minus sign if the number is negative and `k` is not zero. -/
theorem displays_show_rounded_decimals (negative : Bool) (rank : Fin infinityRank) {places : Nat}
    (hplaces : places ≤ Settings.maxPrecision) :
    let exact := (Decimal.ofDigits (Decimal.shortest rank).text).value
    let k := ⌊exact * 10 ^ places + 1 / 2⌋₊
    k < 2 ^ 52 →
      (finite negative rank).displayText places =
        withSign (negative && decide (0 < k)) (Decimal.text ⟨k, places⟩) := by
  intro exact k hk
  have hexact : exact = (Decimal.shortest rank).value :=
    congrArg Decimal.value (Decimal.ofDigits_text _)
  have hrounded := Decimal.value_roundHalfUp_eq_floor (Decimal.shortest rank) places
  rw [← hexact] at hrounded
  exact displayText_of_rounded hplaces hrounded hk negative

/-- A number just below 2 ^ 52 last places whose shortest decimal has one more. It ends in a five,
so the last digit is rounded away from zero. -/
theorem displays_show_rounded_decimals_near_bound :
    let rank : Fin infinityRank := ⟨4616756620828300812, by decide⟩
    let exact := (Decimal.ofDigits (Decimal.shortest rank).text).value
    15 ≤ Settings.maxPrecision ∧ (Decimal.shortest rank).text = "4.5035996273704875".toList ∧
      ⌊exact * 10 ^ 15 + 1 / 2⌋₊ = 2 ^ 52 - 8 ∧
      (finite true rank).displayText 15 = "-4.503599627370488".toList := by
  intro rank exact
  have htext : (Decimal.shortest rank).text = "4.5035996273704875".toList := by decide +kernel
  have hdigits : Decimal.ofDigits "4.5035996273704875".toList = ⟨45035996273704875, 16⟩ := by
    decide +kernel
  have hexact : exact = 45035996273704875 / 10 ^ 16 := by
    change (Decimal.ofDigits (Decimal.shortest rank).text).value = _
    rw [htext, hdigits, Decimal.value, Nat.cast_ofNat]
  have hk : ⌊exact * 10 ^ 15 + 1 / 2⌋₊ = 2 ^ 52 - 8 := by
    rw [hexact, Nat.floor_eq_iff (by norm_num)]
    norm_num
  have hshown := displays_show_rounded_decimals true rank (by decide : 15 ≤ Settings.maxPrecision)
    (hk.trans_lt (by decide))
  refine ⟨by decide, htext, hk, hshown.trans ?_⟩
  rw [hk]
  decide +kernel

end Binary64

end PocketCalculator
