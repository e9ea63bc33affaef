import PocketCalculator.Proofs.Decimal.Value
import PocketCalculator.Proofs.Evaluation.FixedPoint

/-!
# Numbers that stand for decimals with few places

A magnitude of at most 2 ^ 49 last places is read, added and taken to the shortest decimal with
an error of much less than half a last place. So rounding after each of these gives the number
that stands for the exact result.
-/
namespace PocketCalculator

namespace Binary64

/-- The number that stands for `n / 10 ^ places`. Zero has no sign. -/
def ofScaled (places : Nat) (n : ℤ) : Binary64 :=
  (⟨n.natAbs, places⟩ : Decimal).toBinary64 (decide (n < 0))

/-- The number is off by at most a sixteenth of a last place. -/
structure StandsFor (places : Nat) (n : ℤ) (x : Binary64) : Prop where
  isFinite : x.isFinite = true
  near : |x.value * 10 ^ places - n| ≤ 1 / 16

variable {places : Nat} {x y : Binary64} {m n : ℤ}

/-! ## Errors in last places -/

theorem ten_pow_le_unitsPerOne (hplaces : places ≤ Settings.maxPrecision) :
    (2 : ℚ) ^ 10 * 10 ^ places ≤ unitsPerOne := by
  have hten : 10 ^ places ≤ 10 ^ Settings.maxPrecision :=
    Nat.pow_le_pow_right (by decide) hplaces
  have hpower : 2 ^ 10 * 10 ^ Settings.maxPrecision ≤ 2 ^ 60 := by decide
  have hunits : 2 ^ 60 ≤ unitsPerOne := two_pow_le_unitsPerOne (by decide)
  have hle : ((2 ^ 10 * 10 ^ places : Nat) : ℚ) ≤ unitsPerOne :=
    Nat.cast_le.mpr (((Nat.mul_le_mul_left _ hten).trans hpower).trans hunits)
  rwa [Nat.cast_mul, Nat.cast_pow, Nat.cast_pow, Nat.cast_ofNat, Nat.cast_ofNat] at hle

/-- Rounding a magnitude of so many last places is off by at most `error` of a last place. -/
theorem halfSpacing_mul_le (hplaces : places ≤ Settings.maxPrecision) {q error : ℚ}
    (hq : q * 10 ^ places ≤ 2 ^ 53 * error) (herror : 1 / 2 ^ 10 ≤ error) :
    halfSpacing q * 10 ^ places ≤ error := by
  have hten := ten_pow_le_unitsPerOne hplaces
  have hone := unitsPerOne_cast_pos
  rw [halfSpacing, max_mul_of_nonneg _ _ (pow_nonneg (by norm_num) places)]
  refine max_le (le_trans ?_ herror) ?_
  · rw [div_mul_eq_mul_div, one_mul, div_le_div_iff₀ (mul_pos two_pos hone) (by norm_num)]
    linarith
  · rw [div_mul_eq_mul_div, div_le_iff₀' (by norm_num)]
    exact hq

theorem near_mul {a b error power : ℚ} (h : |a - b| ≤ error) (hpower : 0 ≤ power) :
    |a * power - b * power| ≤ error * power := by
  rw [← sub_mul, abs_mul, abs_of_nonneg hpower]
  exact mul_le_mul_of_nonneg_right h hpower

/-- The shortest decimal of a number of so many last places is off by at most an eighth. -/
theorem value_shortest_mul_near (hplaces : places ≤ Settings.maxPrecision)
    {rank : Fin infinityRank} (h : magnitude rank * 10 ^ places ≤ 2 ^ 49 + 1) :
    |magnitude rank * 10 ^ places - (Decimal.shortest rank).value * 10 ^ places| ≤ 1 / 8 := by
  have hpower : (0 : ℚ) ≤ 10 ^ places := pow_nonneg (by norm_num) places
  have hnear := near_mul (Decimal.value_shortest_near rank) hpower
  have hvalue : (Decimal.shortest rank).value * 10 ^ places ≤ 2 ^ 50 := by
    by_contra hgreat
    have herror : halfSpacing (Decimal.shortest rank).value * 10 ^ places ≤
        (Decimal.shortest rank).value * 10 ^ places / 2 ^ 53 :=
      halfSpacing_mul_le hplaces (by linarith) (by linarith)
    have hle := (abs_le.mp (hnear.trans herror)).1
    linarith
  exact hnear.trans (halfSpacing_mul_le hplaces (by linarith) (by norm_num))

/-! ## Rounding -/

theorem eq_decide_of_signed_near {negative : Bool} {q : ℚ} (hq : 0 ≤ q) (hn : n ≠ 0)
    (h : |signed negative q - n| < 1) : negative = decide (n < 0) := by
  obtain ⟨hlow, hhigh⟩ := abs_lt.mp h
  cases negative with
  | false =>
    have hlt : (-1 : ℚ) < n := by
      rw [signed, if_neg Bool.false_ne_true] at hhigh
      linarith
    have hlt' : -1 < n := by exact_mod_cast hlt
    exact (decide_eq_false (by omega)).symm
  | true =>
    have hlt : (n : ℚ) < 1 := by
      rw [signed, if_pos rfl] at hlow
      linarith
    have hlt' : n < 1 := by exact_mod_cast hlt
    exact (decide_eq_true (by omega)).symm

theorem natCast_natAbs (n : ℤ) : (n.natAbs : ℚ) = |(n : ℚ)| := by
  rw [Nat.cast_natAbs, Int.cast_abs]

/-- The number that stands for a decimal is off by at most `error` of a last place. -/
theorem ofScaled_near (hplaces : places ≤ Settings.maxPrecision) (hn : |n| < 2 ^ 52) {error : ℚ}
    (hbound : |(n : ℚ)| ≤ 2 ^ 53 * error) (herror : 1 / 2 ^ 10 ≤ error) :
    (ofScaled places n).isFinite = true ∧ |(ofScaled places n).value * 10 ^ places - n| ≤ error := by
  have hnatAbs : n.natAbs < 2 ^ 52 := by
    rw [Int.abs_eq_natAbs] at hn
    exact_mod_cast hn
  have hfinite : (ofScaled places n).isFinite = true := by
    rw [ofScaled, Decimal.isFinite_toBinary64_iff]
    exact (hnatAbs.trans ((by norm_num : 2 ^ 52 < 2 ^ 54 + 1).trans lt_leastOverflow)).trans_le
      (Nat.le_mul_of_pos_right _ (Nat.pow_pos (by decide)))
  have hpower : (0 : ℚ) < 10 ^ places := pow_pos (by norm_num) places
  have hvalue : (⟨n.natAbs, places⟩ : Decimal).value * 10 ^ places = n.natAbs :=
    div_mul_cancel₀ _ hpower.ne'
  have hnear := near_mul (Decimal.value_toBinary64_near hfinite) hpower.le
  rw [← signed_mul, hvalue, signed_natAbs] at hnear
  refine ⟨hfinite, hnear.trans (halfSpacing_mul_le hplaces ?_ herror)⟩
  rwa [hvalue, natCast_natAbs]

theorem standsFor_ofScaled (hplaces : places ≤ Settings.maxPrecision) (hn : |n| ≤ 2 ^ 49) :
    StandsFor places n (ofScaled places n) := by
  have hn' : |(n : ℚ)| ≤ 2 ^ 49 := by exact_mod_cast hn
  obtain ⟨hfinite, hnear⟩ := ofScaled_near hplaces (hn.trans_lt (by norm_num))
    (hn'.trans (by norm_num) : |(n : ℚ)| ≤ 2 ^ 53 * (1 / 16)) (by norm_num)
  exact ⟨hfinite, hnear⟩

/-- Below 2 ^ 52 last places the number is nearer to the decimal than half of one. -/
theorem ofScaled_near_half (hplaces : places ≤ Settings.maxPrecision) (hn : |n| < 2 ^ 52) :
    (ofScaled places n).isFinite = true ∧
      |(ofScaled places n).value * 10 ^ places - n| < 1 / 2 := by
  have hn' : |(n : ℚ)| ≤ 2 ^ 52 - 1 := by exact_mod_cast Int.le_sub_one_of_lt hn
  obtain ⟨hfinite, hnear⟩ := ofScaled_near hplaces hn
    (hn'.trans (by norm_num) : |(n : ℚ)| ≤ 2 ^ 53 * ((2 ^ 52 - 1) / 2 ^ 53)) (by norm_num)
  exact ⟨hfinite, hnear.trans_lt (by norm_num)⟩

/-- A decimal that is read with the sign it has stands for itself. A zero loses its sign. -/
theorem dropZeroSign_toBinary64 (hplaces : places ≤ Settings.maxPrecision) (hn : |n| < 2 ^ 52)
    {negative : Bool} (h : n ≠ 0 → negative = decide (n < 0)) :
    ((⟨n.natAbs, places⟩ : Decimal).toBinary64 negative).dropZeroSign = ofScaled places n := by
  by_cases hzero : n = 0
  · subst hzero
    exact (congrArg dropZeroSign (Decimal.toBinary64_zero negative places)).trans
      (Decimal.toBinary64_zero false places).symm
  · rw [h hzero, ← ofScaled, dropZeroSign, if_neg]
    intro hisZero
    have hnear := (ofScaled_near_half hplaces hn).2
    rw [value_of_isZero hisZero, zero_mul, zero_sub, abs_neg] at hnear
    have hone : (1 : ℚ) ≤ |(n : ℚ)| := by exact_mod_cast Int.one_le_abs hzero
    linarith

/-- A number that is off by at most a quarter of a last place is rounded to the one that stands
for the decimal. -/
theorem roundHalfAway_eq_ofScaled (hplaces : places ≤ Settings.maxPrecision) (hn : |n| ≤ 2 ^ 49)
    (hx : x.isFinite = true) (h : |x.value * 10 ^ places - n| ≤ 1 / 4) :
    x.roundHalfAway places = ofScaled places n := by
  cases x with
  | nan => cases hx
  | infinity negative => cases hx
  | finite negative rank =>
    obtain ⟨scaled, hscaled⟩ : ∃ scaled, (Decimal.shortest rank).value * 10 ^ places = scaled :=
      ⟨_, rfl⟩
    have hpower : (0 : ℚ) ≤ 10 ^ places := pow_nonneg (by norm_num) places
    have hnonneg : 0 ≤ scaled := hscaled ▸ mul_nonneg (Decimal.value_nonneg _) hpower
    have hn' : |(n : ℚ)| ≤ 2 ^ 49 := by exact_mod_cast hn
    rw [value, ← signed_mul] at h
    have hmagnitude : magnitude rank * 10 ^ places ≤ 2 ^ 49 + 1 := by
      have habs := abs_sub_abs_le_abs_sub (signed negative (magnitude rank * 10 ^ places)) n
      rw [abs_signed] at habs
      have hle := le_abs_self (magnitude rank * 10 ^ places)
      linarith
    -- The shortest decimal is off by an eighth more, which is still less than half a last place.
    have hshortest := value_shortest_mul_near hplaces hmagnitude
    rw [hscaled] at hshortest
    have hnear : |signed negative scaled - n| ≤ 3 / 8 := by
      have hstep := abs_sub_le (signed negative scaled)
        (signed negative (magnitude rank * 10 ^ places)) n
      rw [signed_sub_signed, abs_signed, abs_sub_comm scaled] at hstep
      linarith
    have hrounded : |(Decimal.shortest rank).value * 10 ^ places - n.natAbs| < 1 / 2 := by
      have habs := abs_abs_sub_abs_le (signed negative scaled) n
      rw [abs_signed, abs_of_nonneg hnonneg, ← natCast_natAbs, ← hscaled] at habs
      rw [← hscaled] at hnear
      linarith
    rw [roundHalfAway_finite,
      Decimal.toBinary64_congr (Decimal.value_roundHalfUp hrounded)]
    exact dropZeroSign_toBinary64 hplaces (hn.trans_lt (by norm_num)) fun hzero =>
      eq_decide_of_signed_near hnonneg hzero (hnear.trans_lt (by norm_num))

namespace StandsFor

theorem neg (h : StandsFor places n x) : StandsFor places (-n) x.neg where
  isFinite := (isFinite_neg x).trans h.isFinite
  near := by
    have hnear := h.near
    rwa [value_neg, Int.cast_neg, neg_mul, neg_sub_neg, abs_sub_comm]

theorem roundHalfAway (h : StandsFor places n x) (hplaces : places ≤ Settings.maxPrecision)
    (hn : |n| ≤ 2 ^ 49) : x.roundHalfAway places = ofScaled places n :=
  roundHalfAway_eq_ofScaled hplaces hn h.isFinite (h.near.trans (by norm_num))

theorem add (hx : StandsFor places m x) (hy : StandsFor places n y)
    (hplaces : places ≤ Settings.maxPrecision) (hsum : |m + n| ≤ 2 ^ 49) :
    (x.add y).isFinite = true ∧ (x.add y).roundHalfAway places = ofScaled places (m + n) := by
  have hpower : (1 : ℚ) ≤ 10 ^ places := one_le_pow₀ (by norm_num)
  have hsum' : |((m + n : ℤ) : ℚ)| ≤ 2 ^ 49 := by exact_mod_cast hsum
  have hoperands : |(x.value + y.value) * 10 ^ places - (m + n : ℤ)| ≤ 1 / 8 := by
    have hstep := abs_add_le (x.value * 10 ^ places - m) (y.value * 10 ^ places - n)
    have hsplit : (x.value + y.value) * 10 ^ places - (m + n : ℤ) =
        x.value * 10 ^ places - m + (y.value * 10 ^ places - n) := by
      rw [Int.cast_add]
      ring
    rw [hsplit]
    linarith [hx.near, hy.near]
  have hscaled : |x.value + y.value| * 10 ^ places ≤ 2 ^ 49 + 1 / 8 := by
    have habs := abs_sub_abs_le_abs_sub ((x.value + y.value) * 10 ^ places) (m + n : ℤ)
    rw [abs_mul, abs_of_pos (zero_lt_one.trans_le hpower)] at habs
    linarith
  have hfinite : (x.add y).isFinite = true := by
    refine isFinite_add hx.isFinite hy.isFinite ?_
    have hle := le_mul_of_one_le_right (abs_nonneg (x.value + y.value)) hpower
    have hrange : (2 : ℚ) ^ 54 + 1 < leastOverflow := by exact_mod_cast lt_leastOverflow
    linarith
  -- The operands are off by an eighth together, and rounding their sum adds at most another.
  have hrounded := near_mul (value_add_near hx.isFinite hy.isFinite hfinite)
    (zero_le_one.trans hpower)
  have herror : halfSpacing |x.value + y.value| * 10 ^ places ≤ 1 / 8 :=
    halfSpacing_mul_le hplaces (by linarith) (by norm_num)
  refine ⟨hfinite, roundHalfAway_eq_ofScaled hplaces hsum hfinite ?_⟩
  have hstep := abs_sub_le ((x.add y).value * 10 ^ places)
    ((x.value + y.value) * 10 ^ places) (m + n : ℤ)
  linarith

end StandsFor

/-! ## Printing -/

theorem fixedText_ofScaled (hplaces : places ≤ Settings.maxPrecision) (hn : |n| < 2 ^ 52) :
    (ofScaled places n).fixedText places =
      withSign (decide (n < 0)) (Decimal.text ⟨n.natAbs, places⟩) := by
  obtain ⟨hfinite, hnear⟩ := ofScaled_near_half hplaces hn
  obtain ⟨rank, hrank⟩ := Decimal.exists_toBinary64_eq hfinite
  change ofScaled places n = _ at hrank
  rw [hrank, value, ← signed_mul, ← signed_natAbs n, signed_sub_signed, abs_signed] at hnear
  have hcoefficient : roundHalfEven (units rank * 10 ^ places) unitsPerOne = n.natAbs := by
    refine roundHalfEven_eq_of_near unitsPerOne_pos ?_
    rw [Nat.cast_mul, Nat.cast_pow, Nat.cast_ofNat, mul_div_right_comm, ← magnitude]
    exact hnear
  rw [hrank, fixedText_finite, Decimal.printed, hcoefficient]

end Binary64

end PocketCalculator
