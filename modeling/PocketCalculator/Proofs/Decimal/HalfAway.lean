import PocketCalculator.Proofs.Decimal.Nearest

/-!
# Rounding is to the nearest decimal

Rounding a number takes its shortest decimal to the nearest one with the places asked for, a half
going away from zero, and reads that as the nearest number. The digits that are built on the way
are those of the decimal, so there is always a number to be read.
-/
namespace PocketCalculator

namespace Decimal

open Binary64

theorem exists_isNearest_roundHalfUp (rank : Fin infinityRank) (places : Nat) :
    ∃ rounded, IsNearest ((shortest rank).roundHalfUp places).value rounded := by
  by_cases h : (shortest rank).places ≤ places
  · rw [roundHalfUp_of_places_le h]
    exact ⟨rank, isNearest_shortest rank⟩
  · obtain ⟨rounded, hread⟩ := exists_toBinary64_eq (isFinite_toBinary64_roundHalfUp h false)
    exact ⟨rounded, isNearest_of_toBinary64 hread⟩

end Decimal

namespace Binary64

/-- A number whose shortest decimal has nothing to cut off is left alone. -/
theorem roundHalfAway_of_whole {rank : Fin infinityRank} {places n : Nat}
    (h : (Decimal.shortest rank).value * 10 ^ places = n) (negative : Bool) :
    (finite negative rank).roundHalfAway places = (finite negative rank).dropZeroSign := by
  rw [roundHalfAway_finite, Decimal.toBinary64_congr (Decimal.value_roundHalfUp_of_whole h),
    Decimal.toBinary64_shortest]

theorem roundHalfAway_of_isNearest {rank rounded : Fin infinityRank} {places : Nat}
    (h : IsNearest ((Decimal.shortest rank).roundHalfUp places).value rounded) (negative : Bool) :
    (finite negative rank).roundHalfAway places = (finite negative rounded).dropZeroSign := by
  rw [roundHalfAway_finite, Decimal.toBinary64_eq_finite_iff_isNearest.mpr h]

/-- Let `exact` be what the shortest decimal text of a number stands for, and `k` the number of
last places nearest to it, a half going up. The rounded number is the one nearest to `k` last
places, with the sign of the number unless it is zero, and it is the number itself if no digit is
cut off. The digits that are built are those of `k`, with room for a point before the last places,
and what is written with the point is read as the rounded number. -/
theorem rounds_half_away_from_zero (negative : Bool) (rank : Fin infinityRank) (places : Nat) :
    let x := finite negative rank
    let text := (Decimal.shortest rank).text
    let exact := (Decimal.ofDigits text).value
    let k := ⌊exact * 10 ^ places + 1 / 2⌋₊
    (x.roundHalfAway places).isFinite = true ∧
    ((∃ n : Nat, exact * 10 ^ places = n) → x.roundHalfAway places = x.dropZeroSign) ∧
    ∃ rounded, (∀ other, IsNearest (k / 10 ^ places) other ↔ other = rounded) ∧
      x.roundHalfAway places = (finite negative rounded).dropZeroSign ∧
      ∀ cut, (Decimal.splitPoint text).2[places]? = some cut →
        let digits := Decimal.roundDigits
          ((Decimal.splitPoint text).1 ++ (Decimal.splitPoint text).2.take places) cut
        Decimal.IsScaled places k digits ∧
          ofText? (withSign negative (Decimal.insertPoint digits places)) =
            some (finite negative rounded) := by
  intro x text exact k
  have hexact : exact = (Decimal.shortest rank).value :=
    congrArg Decimal.value (Decimal.ofDigits_text _)
  obtain ⟨rounded, hrounded⟩ := Decimal.exists_isNearest_roundHalfUp rank places
  have hequal : x.roundHalfAway places = (finite negative rounded).dropZeroSign :=
    roundHalfAway_of_isNearest hrounded negative
  have hread : ((Decimal.shortest rank).roundHalfUp places).toBinary64 negative =
      finite negative rounded := Decimal.toBinary64_eq_finite_iff_isNearest.mpr hrounded
  rw [Decimal.value_roundHalfUp_eq_floor, ← hexact] at hrounded
  refine ⟨isFinite_roundHalfAway rfl places, ?whole, rounded,
    fun other => ⟨fun h => h.unique hrounded, fun h => h ▸ hrounded⟩, hequal, ?digits⟩
  case whole =>
    rintro ⟨n, hn⟩
    rw [hexact] at hn
    exact roundHalfAway_of_whole hn negative
  case digits =>
    intro cut hcut
    have hscaled := Decimal.isScaled_roundDigits hcut
    rw [Decimal.coefficient_roundHalfUp (Decimal.places_lt_of_cut hcut), ← hexact] at hscaled
    exact ⟨hscaled, (ofText?_roundDigits hcut negative).trans (congrArg some hread)⟩

/-- Rounding -9.95 to one place carries into a new digit. With two places it stays as it is. -/
theorem rounds_half_away_from_zero_carried :
    let rank : Fin infinityRank := ⟨4621790970091300454, by decide⟩
    let x := finite true rank
    let ten : Fin infinityRank := ⟨4621819117588971520, by decide⟩
    (Decimal.shortest rank).text = "9.95".toList ∧
      (x.roundHalfAway 1).isFinite = true ∧ x.roundHalfAway 2 = x ∧
      IsNearest (100 / 10 ^ 1) ten ∧ x.roundHalfAway 1 = finite true ten ∧
      Decimal.roundDigits "99".toList '5' = "100".toList ∧
      Decimal.IsScaled 1 100 "100".toList ∧
      ofText? "-10.0".toList = some (finite true ten) := by
  intro rank x ten
  have htext : (Decimal.shortest rank).text = "9.95".toList := by decide +kernel
  have hexact : (Decimal.ofDigits "9.95".toList).value = 995 / 10 ^ 2 := by
    rw [show Decimal.ofDigits "9.95".toList = ⟨995, 2⟩ by decide, Decimal.value, Nat.cast_ofNat]
  have hk : ⌊(995 : ℚ) / 10 ^ 2 * 10 ^ 1 + 1 / 2⌋₊ = 100 := by
    rw [Nat.floor_eq_iff (by norm_num)]
    norm_num
  have hx : x.dropZeroSign = x := by decide +kernel
  have hten : (finite true ten).dropZeroSign = finite true ten := by decide +kernel
  have hread : ofText? "-10.0".toList = some (finite true ten) := by decide +kernel
  obtain ⟨-, hwhole, -⟩ := rounds_half_away_from_zero true rank 2
  obtain ⟨hfinite, -, rounded, hnearest, hequal, hdigits⟩ := rounds_half_away_from_zero true rank 1
  rw [htext, hexact] at hwhole hnearest hdigits
  rw [hk] at hnearest hdigits
  obtain ⟨hscaled, hcarried⟩ := hdigits '5' (by decide)
  have hrounded : finite true ten = finite true rounded :=
    Option.some.inj (hread.symm.trans hcarried)
  obtain rfl : ten = rounded := (finite.inj hrounded).2
  refine ⟨htext, hfinite, ?_, (hnearest ten).mpr rfl, hequal.trans hten, by decide, hscaled, hread⟩
  rw [hwhole ⟨995, by norm_num⟩, hx]

end Binary64

end PocketCalculator
