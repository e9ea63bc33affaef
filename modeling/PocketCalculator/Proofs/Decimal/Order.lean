import PocketCalculator.Proofs.Decimal.HalfAway

/-!
# Rounding keeps the order

A greater magnitude has a greater shortest decimal, which is rounded to a greater decimal and read
as a greater magnitude. The sign has no part in this, except that a rounded zero has none.
-/
namespace PocketCalculator

namespace Decimal

open Binary64

variable {d e : Decimal} {places : Nat}

theorem value_roundHalfUp_mono (h : d.value ≤ e.value) (places : Nat) :
    (d.roundHalfUp places).value ≤ (e.roundHalfUp places).value := by
  have hpower : (0 : ℚ) < 10 ^ places := by positivity
  rw [value_roundHalfUp_eq_floor, value_roundHalfUp_eq_floor, div_le_div_iff_of_pos_right hpower,
    Nat.cast_le]
  exact Nat.floor_mono (add_le_add_left (mul_le_mul_of_nonneg_right h hpower.le) _)

theorem isNearest_roundHalfUp_mono {m n a b : Fin infinityRank} (h : m ≤ n)
    (ha : IsNearest ((shortest m).roundHalfUp places).value a)
    (hb : IsNearest ((shortest n).roundHalfUp places).value b) : a ≤ b :=
  ha.mono hb (value_roundHalfUp_mono (value_shortest_mono h) places)

end Decimal

namespace Binary64

/-- The order of the numbers by their values, from one infinity to the other. The two zeros are
equal, and nothing compares with not-a-number. -/
inductive Le : Binary64 → Binary64 → Prop where
  | finite {x y : Binary64} (hx : x.isFinite = true) (hy : y.isFinite = true)
      (h : x.value ≤ y.value) : Le x y
  | least {x : Binary64} (h : x ≠ nan) : Le (infinity true) x
  | greatest {x : Binary64} (h : x ≠ nan) : Le x (infinity false)

variable {x y : Binary64} {places : Nat}

/-! ## Finite numbers -/

theorem magnitude_nonneg (rank : Nat) : 0 ≤ magnitude rank := by
  rw [magnitude]
  positivity

theorem value_dropZeroSign (x : Binary64) : x.dropZeroSign.value = x.value := by
  unfold dropZeroSign
  split
  · rename_i hzero
    rw [value_zero, value_of_isZero hzero]
  · rfl

/-- A finite number is rounded to a magnitude that does not depend on its sign. -/
theorem exists_value_roundHalfAway (rank : Fin infinityRank) (places : Nat) :
    ∃ rounded, IsNearest ((Decimal.shortest rank).roundHalfUp places).value rounded ∧
      ∀ negative, ((finite negative rank).roundHalfAway places).value =
        signed negative (magnitude rounded) := by
  obtain ⟨rounded, hrounded⟩ := Decimal.exists_isNearest_roundHalfUp rank places
  refine ⟨rounded, hrounded, fun negative => ?_⟩
  rw [roundHalfAway_of_isNearest hrounded, value_dropZeroSign, value]

theorem value_roundHalfAway_eq_zero {negative : Bool} {rank : Fin infinityRank}
    (h : magnitude rank = 0) (places : Nat) :
    ((finite negative rank).roundHalfAway places).value = 0 := by
  have hzero : rank.val = 0 := magnitude_strictMono.injective
    (h.trans (by rw [magnitude, units_zero, Nat.cast_zero, zero_div]))
  rw [roundHalfAway_eq_ite, hzero, Decimal.shortest_zero, if_pos (Nat.zero_le places),
    value_dropZeroSign, value, h, signed_zero]

theorem value_roundHalfAway_mono {s t : Bool} {m n : Fin infinityRank}
    (h : (finite s m).value ≤ (finite t n).value) (places : Nat) :
    ((finite s m).roundHalfAway places).value ≤ ((finite t n).roundHalfAway places).value := by
  obtain ⟨a, ha, hvalue⟩ := exists_value_roundHalfAway m places
  obtain ⟨b, hb, hvalue'⟩ := exists_value_roundHalfAway n places
  have hm := magnitude_nonneg m
  have hn := magnitude_nonneg n
  rw [value, value] at h
  cases s with
  | false =>
    cases t with
    | false =>
      have hle : m ≤ n := magnitude_strictMono.le_iff_le.mp h
      rw [hvalue, hvalue']
      exact magnitude_strictMono.monotone (Decimal.isNearest_roundHalfUp_mono hle ha hb)
    | true =>
      -- A number that is not negative is at most one that is not positive: both are zero.
      simp only [signed, if_true, Bool.false_eq_true, if_false] at h
      rw [value_roundHalfAway_eq_zero (by linarith), value_roundHalfAway_eq_zero (by linarith)]
  | true =>
    rw [hvalue, hvalue']
    cases t with
    | false => exact (neg_nonpos.mpr (magnitude_nonneg a)).trans (magnitude_nonneg b)
    | true =>
      have hle : n ≤ m := magnitude_strictMono.le_iff_le.mp (neg_le_neg_iff.mp h)
      exact neg_le_neg
        (magnitude_strictMono.monotone (Decimal.isNearest_roundHalfUp_mono hle hb ha))

/-! ## All numbers -/

theorem roundHalfAway_ne_nan (h : x ≠ nan) (places : Nat) : x.roundHalfAway places ≠ nan := by
  cases x with
  | nan => exact absurd rfl h
  | infinity negative => exact h
  | finite negative rank =>
    intro heq
    have hfinite : ((finite negative rank).roundHalfAway places).isFinite = true :=
      isFinite_roundHalfAway rfl places
    rw [heq] at hfinite
    cases hfinite

theorem Le.roundHalfAway (h : Le x y) (places : Nat) :
    Le (x.roundHalfAway places) (y.roundHalfAway places) := by
  cases h with
  | finite hx hy h =>
    refine .finite (isFinite_roundHalfAway hx places) (isFinite_roundHalfAway hy places) ?_
    cases x with
    | nan => cases hx
    | infinity negative => cases hx
    | finite s m =>
      cases y with
      | nan => cases hy
      | infinity negative => cases hy
      | finite t n => exact value_roundHalfAway_mono h places
  | least hy => exact .least (roundHalfAway_ne_nan hy places)
  | greatest hx => exact .greatest (roundHalfAway_ne_nan hx places)

/-- A finite number is rounded to zero with its negation, or to the negation of what that is
rounded to. -/
theorem roundHalfAway_odd (h : x.isFinite = true) (places : Nat) :
    x.roundHalfAway places = zero false ∧ x.neg.roundHalfAway places = zero false ∨
      (x.roundHalfAway places).isZero = false ∧
        x.neg.roundHalfAway places = (x.roundHalfAway places).neg := by
  have hneg := roundHalfAway_neg x places
  cases hzero : (x.roundHalfAway places).isZero with
  | false =>
    refine Or.inr ⟨rfl, hneg.trans (if_neg ?_)⟩
    rw [isZero_neg, hzero]
    exact Bool.false_ne_true
  | true =>
    refine Or.inl ⟨?_, hneg.trans (if_pos ((isZero_neg _).trans hzero))⟩
    have hdropped := (fitsIn_roundHalfAway h places).dropZeroSign_eq
    rwa [dropZeroSign, if_pos hzero, eq_comm] at hdropped

/-- Rounding keeps the order of any two numbers that compare. It treats a finite number and its
negation alike, except that zero is left without a sign. -/
theorem rounding_is_monotone_and_odd (places : Nat) :
    (∀ x y, Le x y → Le (x.roundHalfAway places) (y.roundHalfAway places)) ∧
    ∀ x : Binary64, x.isFinite = true →
      x.roundHalfAway places = zero false ∧ x.neg.roundHalfAway places = zero false ∨
        (x.roundHalfAway places).isZero = false ∧
          x.neg.roundHalfAway places = (x.roundHalfAway places).neg :=
  ⟨fun _ _ h => h.roundHalfAway places, fun _ h => roundHalfAway_odd h places⟩

/-- Of two neighbours, 3.4499999999999997 and 3.45, one goes down to 3.4 and the other goes up to
3.5. -/
theorem rounding_is_monotone_and_odd_neighbours :
    let x := finite false ⟨4614951128157231513, by decide⟩
    let y := finite false ⟨4614951128157231514, by decide⟩
    let down := finite false ⟨4614838538166547251, by decide⟩
    let up := finite false ⟨4615063718147915776, by decide⟩
    Le x y ∧ x.roundHalfAway 1 = down ∧ y.roundHalfAway 1 = up ∧ Le down up ∧
      x.isFinite = true ∧ x.neg.roundHalfAway 1 = down.neg := by
  intro x y down up
  have hxy : Le x y := .finite rfl rfl (magnitude_strictMono.monotone (by decide))
  have hx : x.roundHalfAway 1 = down := by decide +kernel
  have hy : y.roundHalfAway 1 = up := by decide +kernel
  obtain ⟨hmono, hodd⟩ := rounding_is_monotone_and_odd 1
  have hle := hmono x y hxy
  have hneg := hodd x rfl
  rw [hx, hy] at hle
  rw [hx] at hneg
  refine ⟨hxy, hx, hy, hle, rfl, ?_⟩
  rcases hneg with ⟨hzero, -⟩ | ⟨-, hneg⟩
  · exact absurd hzero (by decide)
  · exact hneg

end Binary64

end PocketCalculator
