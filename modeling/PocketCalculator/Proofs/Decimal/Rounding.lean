import PocketCalculator.Binary64.Arithmetic
import PocketCalculator.Proofs.Decimal.Finite
import PocketCalculator.Proofs.Decimal.ReadBack

/-!
# Rounding leaves rounded numbers alone

A rounded number is read from a decimal with no more places than were asked for, so its
shortest decimal has no more of them either, and there is nothing left to round.
-/
namespace PocketCalculator

theorem Decimal.exists_toBinary64_eq {d : Decimal} {negative : Bool}
    (h : (d.toBinary64 negative).isFinite = true) :
    ∃ rank, d.toBinary64 negative = .finite negative rank := by
  unfold toBinary64 Binary64.ofUnits at h ⊢
  dsimp only at h ⊢
  split at h
  · rename_i hrange
    exact ⟨_, dif_pos hrange⟩
  · cases h

namespace Binary64

/-- A finite number other than negative zero whose shortest decimal has at most `places`
fraction digits. -/
def FitsIn (places : Nat) : Binary64 → Prop
  | finite negative rank =>
    (Decimal.shortest rank).places ≤ places ∧ (rank.val = 0 → negative = false)
  | _ => False

variable {x : Binary64} {places : Nat}

theorem fitsIn_dropZeroSign {negative : Bool} {rank : Fin infinityRank}
    (h : (Decimal.shortest rank).places ≤ places) :
    (finite negative rank).dropZeroSign.FitsIn places := by
  unfold dropZeroSign
  split
  · rename_i hzero
    have hrank : rank.val = 0 := by simpa [isZero] using hzero
    rw [hrank] at h
    exact ⟨h, fun _ => rfl⟩
  · rename_i hzero
    refine ⟨h, fun hrank => absurd ?_ hzero⟩
    simpa [isZero] using hrank

theorem fitsIn_roundHalfAway (h : x.isFinite = true) (places : Nat) :
    (x.roundHalfAway places).FitsIn places := by
  cases x with
  | nan => cases h
  | infinity negative => cases h
  | finite negative rank =>
    rw [roundHalfAway_eq_ite]
    split
    · rename_i hplaces
      exact fitsIn_dropZeroSign hplaces
    · rename_i hplaces
      obtain ⟨rounded, hread⟩ := Decimal.exists_toBinary64_eq
        (Decimal.isFinite_toBinary64_roundHalfUp hplaces negative)
      have hshorter := Decimal.places_shortest_le_of_toBinary64 hread
      rw [Decimal.places_roundHalfUp hplaces] at hshorter
      rw [hread]
      exact fitsIn_dropZeroSign hshorter

theorem FitsIn.exists_eq_finite (h : x.FitsIn places) :
    ∃ negative rank, x = finite negative rank := by
  cases x with
  | nan => cases h
  | infinity negative => cases h
  | finite negative rank => exact ⟨negative, rank, rfl⟩

theorem FitsIn.dropZeroSign_eq (h : x.FitsIn places) : x.dropZeroSign = x := by
  obtain ⟨negative, rank, rfl⟩ := h.exists_eq_finite
  unfold dropZeroSign
  split
  · rename_i hzero
    have hrank : rank.val = 0 := by simpa [isZero] using hzero
    rw [h.2 hrank, zero]
    congr 1
    exact Fin.ext hrank.symm
  · rfl

theorem FitsIn.roundHalfAway_eq (h : x.FitsIn places) : x.roundHalfAway places = x := by
  obtain ⟨negative, rank, rfl⟩ := h.exists_eq_finite
  rw [roundHalfAway_eq_ite, if_pos h.1, h.dropZeroSign_eq]

/-- A decimal with few places is read as a number that is rounded already. -/
theorem fitsIn_toBinary64 {d : Decimal} (hd : d.places ≤ places)
    (h : (d.toBinary64 false).isFinite = true) : (d.toBinary64 false).FitsIn places := by
  obtain ⟨rank, hread⟩ := Decimal.exists_toBinary64_eq h
  rw [hread]
  exact ⟨(Decimal.places_shortest_le_of_toBinary64 hread).trans hd, fun _ => rfl⟩

theorem FitsIn.mono {more : Nat} (h : x.FitsIn places) (hmore : places ≤ more) :
    x.FitsIn more := by
  obtain ⟨negative, rank, rfl⟩ := h.exists_eq_finite
  exact ⟨h.1.trans hmore, h.2⟩

theorem roundHalfAway_of_not_finite (h : x.isFinite = false) (places : Nat) :
    x.roundHalfAway places = x := by
  cases x with
  | nan => rfl
  | infinity negative => rfl
  | finite negative rank => cases h

theorem roundHalfAway_roundHalfAway_of_le (x : Binary64) {places more : Nat} (h : places ≤ more) :
    (x.roundHalfAway places).roundHalfAway more = x.roundHalfAway places := by
  cases hx : x.isFinite with
  | true => exact ((fitsIn_roundHalfAway hx places).mono h).roundHalfAway_eq
  | false => rw [roundHalfAway_of_not_finite hx, roundHalfAway_of_not_finite hx]

theorem roundHalfAway_roundHalfAway (x : Binary64) (places : Nat) :
    (x.roundHalfAway places).roundHalfAway places = x.roundHalfAway places :=
  roundHalfAway_roundHalfAway_of_le x le_rfl

/-- A number is rounded to one whose own shortest decimal has no more places than were asked for.
So it stays as it is when it is rounded again, to as many places or to more. -/
theorem rounding_is_idempotent (x : Binary64) (places : Nat) :
    (x.roundHalfAway places).roundHalfAway places = x.roundHalfAway places ∧
    (∀ more, places ≤ more →
      (x.roundHalfAway places).roundHalfAway more = x.roundHalfAway places) ∧
    ∀ negative rank, x.roundHalfAway places = finite negative rank →
      (Decimal.shortest rank).places ≤ places := by
  refine ⟨roundHalfAway_roundHalfAway x places,
    fun more => roundHalfAway_roundHalfAway_of_le x, fun negative rank hrounded => ?places⟩
  case places =>
    cases hx : x.isFinite with
    | true =>
      have hfits := fitsIn_roundHalfAway hx places
      rw [hrounded] at hfits
      exact hfits.1
    | false =>
      rw [roundHalfAway_of_not_finite hx] at hrounded
      rw [hrounded] at hx
      cases hx

/-- Rounding 99.96 to one place carries into a new digit. What is left is a hundred. -/
theorem rounding_is_idempotent_carried :
    let x := finite false ⟨4636734476604869181, by decide⟩
    let hundred : Fin infinityRank := ⟨4636737291354636288, by decide⟩
    x.roundHalfAway 1 = finite false hundred ∧
      (finite false hundred).roundHalfAway 1 = finite false hundred ∧
      (finite false hundred).roundHalfAway 2 = finite false hundred ∧
      (Decimal.shortest hundred).places ≤ 1 := by
  intro x hundred
  have hrounded : x.roundHalfAway 1 = finite false hundred := by decide +kernel
  obtain ⟨hagain, hmore, hplaces⟩ := rounding_is_idempotent x 1
  rw [hrounded] at hagain hmore
  exact ⟨hrounded, hagain, hmore 2 (by decide), hplaces _ _ hrounded⟩

/-! ## Signs -/

theorem ofUnits_not (negative : Bool) (num den : Nat) :
    ofUnits (!negative) num den = (ofUnits negative num den).neg := by
  unfold ofUnits
  dsimp only
  split <;> rfl

theorem isZero_neg (x : Binary64) : x.neg.isZero = x.isZero := by
  cases x <;> rfl

theorem dropZeroSign_neg_dropZeroSign (x : Binary64) :
    x.dropZeroSign.neg.dropZeroSign = x.neg.dropZeroSign := by
  cases hzero : x.isZero with
  | true =>
    have hdropped : x.dropZeroSign = zero false := if_pos hzero
    have hnegated : x.neg.dropZeroSign = zero false := if_pos ((isZero_neg x).trans hzero)
    rw [hdropped, hnegated]
    rfl
  | false =>
    have hkept : x.dropZeroSign = x := if_neg (by rw [hzero]; exact Bool.false_ne_true)
    rw [hkept]

/-- A number and its negation are rounded alike, but zero has no sign left. -/
theorem roundHalfAway_neg (x : Binary64) (places : Nat) :
    x.neg.roundHalfAway places = (x.roundHalfAway places).neg.dropZeroSign := by
  cases x with
  | nan => rfl
  | infinity negative => rfl
  | finite negative rank =>
    change (finite (!negative) rank).roundHalfAway places = _
    rw [roundHalfAway_eq_ite, roundHalfAway_eq_ite]
    split
    · rw [dropZeroSign_neg_dropZeroSign, neg]
    · rw [dropZeroSign_neg_dropZeroSign, Decimal.toBinary64, Decimal.toBinary64, ofUnits_not]

end Binary64

end PocketCalculator
