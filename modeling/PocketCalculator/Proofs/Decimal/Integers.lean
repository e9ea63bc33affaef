import PocketCalculator.Proofs.Binary64.Integers
import PocketCalculator.Proofs.Decimal.Scaled

/-!
# Integers in decimal

The shortest decimal of an integer has no places, so integers are rounded to themselves however
many places are kept. They are printed as their own digits, with zeros after the point.
-/
namespace PocketCalculator

namespace Decimal

open Binary64

/-- What an integer with `places` fraction digits looks like after its own digits. -/
def zeroFraction (places : Nat) : List Char :=
  if places = 0 then [] else '.' :: List.replicate places '0'

theorem fixedDigits_mul_pow (k width : Nat) :
    fixedDigits width (k * 10 ^ width) = List.replicate width '0' := by
  induction width with
  | zero => rfl
  | succ width ih =>
    have hdiv : k * 10 ^ (width + 1) / 10 = k * 10 ^ width := by
      rw [pow_succ, ← mul_assoc, Nat.mul_div_cancel _ (by decide)]
    have hmod : k * 10 ^ (width + 1) % 10 = 0 := by
      rw [pow_succ, ← mul_assoc, Nat.mul_mod_left]
    rw [fixedDigits, hdiv, hmod, ih, List.replicate_succ']
    rfl

theorem text_mul_pow (k places : Nat) :
    text ⟨k * 10 ^ places, places⟩ = Nat.toDigits 10 k ++ zeroFraction places := by
  have hwhole : k * 10 ^ places / 10 ^ places = k :=
    Nat.mul_div_cancel _ (Nat.pow_pos (by decide))
  unfold text zeroFraction
  dsimp only
  rw [hwhole, fixedDigits_mul_pow]
  split
  · rw [List.append_nil]
  · rfl

theorem isInteger_toBinary64 {d : Decimal} {k : Nat} (hd : d.value = k) (hk : k ≤ 2 ^ 53) :
    IsInteger k (d.toBinary64 false) := by
  have hvalue : d.value = (⟨k, 0⟩ : Decimal).value := by
    rw [hd, value, pow_zero, div_one]
  rw [toBinary64_congr hvalue, toBinary64, pow_zero]
  refine isInteger_ofUnits Nat.one_pos ?_ ?_ ?_
  · rw [Nat.abs_cast]
    exact_mod_cast hk
  · rw [Int.natAbs_natCast, mul_one]
  · rw [Int.natAbs_natCast, Int.cast_natCast]
    rfl

end Decimal

namespace Binary64

variable {x : Binary64} {n : ℤ} {negative : Bool} {rank : Fin infinityRank}

theorem IsInteger.places_shortest (h : IsInteger n (finite negative rank)) :
    (Decimal.shortest rank).places = 0 := by
  have hread : (⟨n.natAbs, 0⟩ : Decimal).toBinary64 negative = finite negative rank := by
    have hnearest := nearestRank_units Nat.one_pos rank
    rw [mul_one, h.units_eq.1] at hnearest
    rwa [Decimal.toBinary64_eq_finite_iff, pow_zero]
  exact Nat.le_zero.mp (Decimal.places_shortest_le_of_toBinary64 hread)

/-- Rounding takes nothing from an integer but the sign of a zero. -/
theorem IsInteger.roundHalfAway_eq (h : IsInteger n x) (places : Nat) :
    x.roundHalfAway places = x.dropZeroSign := by
  obtain ⟨negative, rank, rfl⟩ := h.exists_eq_finite
  have hplaces : (Decimal.shortest rank).places ≤ places := by
    rw [h.places_shortest]
    exact Nat.zero_le places
  rw [roundHalfAway_eq_ite, if_pos hplaces]

theorem IsInteger.dropZeroSign (h : IsInteger n x) : IsInteger n x.dropZeroSign := by
  unfold Binary64.dropZeroSign
  split
  · rename_i hzero
    have hvalue := value_of_isZero hzero
    rw [h.value_eq] at hvalue
    exact ⟨rfl, by rw [value_zero, hvalue]⟩
  · exact h

theorem IsInteger.roundHalfAway (h : IsInteger n x) (places : Nat) :
    IsInteger n (x.roundHalfAway places) := by
  rw [h.roundHalfAway_eq]
  exact h.dropZeroSign

theorem roundHalfEven_mul_self (n : Nat) {den : Nat} (hden : 0 < den) :
    roundHalfEven (n * den) den = n := by
  have hscaled := roundHalfEven_mul_right n 1 hden
  rw [one_mul] at hscaled
  rw [hscaled]
  simp [roundHalfEven, Nat.mod_one]

theorem IsInteger.fixedText_roundHalfAway (h : IsInteger n x) (places : Nat) :
    (x.roundHalfAway places).fixedText places =
      withSign (decide (n < 0)) (Nat.toDigits 10 n.natAbs ++ Decimal.zeroFraction places) := by
  obtain ⟨negative, rank, hx⟩ := (h.roundHalfAway places).exists_eq_finite
  have hfits := fitsIn_roundHalfAway h.isFinite places
  have hinteger := h.roundHalfAway places
  rw [hx] at hfits hinteger ⊢
  obtain ⟨hunits, hsigned⟩ := hinteger.units_eq
  have hsign : negative = decide (n < 0) := by
    by_cases hn : n = 0
    · have hrank : rank.val = 0 := by
        refine units_strictMono.injective ?_
        rw [hunits, hn, units_zero, Int.natAbs_zero, Nat.zero_mul]
      rw [hfits.2 hrank, hn]
      rfl
    · refine eq_decide_of_signed_near (Nat.cast_nonneg n.natAbs) hn ?_
      rw [hsigned, sub_self, abs_zero]
      exact zero_lt_one
  have hcoefficient : roundHalfEven (units rank * 10 ^ places) unitsPerOne =
      n.natAbs * 10 ^ places := by
    rw [hunits, mul_right_comm, roundHalfEven_mul_self _ unitsPerOne_pos]
  rw [fixedText_finite, Decimal.printed, hcoefficient, Decimal.text_mul_pow, hsign]

end Binary64

end PocketCalculator
