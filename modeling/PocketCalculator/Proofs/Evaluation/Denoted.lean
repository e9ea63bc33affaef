import PocketCalculator.Proofs.Decimal.Nearest
import PocketCalculator.Proofs.Evaluation.FixedPoint

/-!
# What is shown denotes the value

A value is rounded before it is printed, and what is printed of a rounded number is read as that
number. So a display loses nothing of the value it was made for, although its digits are those of
the binary number and not of the decimal that the value was rounded to.
-/
namespace PocketCalculator

open Binary64

theorem Binary64.ofText?_fixedText {negative : Bool} {rank : Fin infinityRank} {places : Nat}
    (hfits : (finite negative rank).FitsIn places) (hplaces : places ≤ Settings.maxPrecision) :
    ofText? ((finite negative rank).fixedText places) = some (finite negative rank) := by
  rw [fixedText_finite, ofText?_withSign (Decimal.isPlain_text _), Decimal.ofDigits_text,
    Decimal.toBinary64_printed hfits.1 (five_pow_lt hplaces)]

namespace Settings

variable {s : Settings} {text : List Char} {x : Binary64}

theorem evaluate_of_evaluateValue (h : s.evaluateValue text = .ok x) :
    s.evaluate text = .ok (x.fixedText s.precision) := by
  rw [evaluate, h, ← congrArg (·.fixedText s.precision) (fitsIn_of_evaluateValue h).roundHalfAway_eq]
  rfl

/-- What is shown of an expression is read as its value. -/
theorem ofText?_of_evaluateValue (hs : s.precision ≤ maxPrecision)
    (h : s.evaluateValue text = .ok x) : ofText? (x.fixedText s.precision) = some x := by
  have hfits := fitsIn_of_evaluateValue h
  obtain ⟨negative, rank, rfl⟩ := hfits.exists_eq_finite
  exact ofText?_fixedText hfits hs

/-- The text that is shown of a number denotes the rounded number: this is the one nearest to the
decimal in the text. So an expression has a value exactly if a text is shown of it that denotes
this value. -/
theorem displays_denote_their_values :
    (∀ places, places ≤ maxPrecision → ∀ negative rank,
      let x := finite negative rank
      ofText? (x.displayText places) = some (x.roundHalfAway places) ∧
      ∃ sign d rounded, x.displayText places = withSign sign (Decimal.text d) ∧
        x.roundHalfAway places = finite sign rounded ∧ IsNearest d.value rounded) ∧
    ∀ (s : Settings) (asked : Nat) (text : List Char) (value : Binary64),
      let t := s.withPrecision asked
      t.evaluateValue text = .ok value ↔
        ∃ shown, t.evaluate text = .ok shown ∧ ofText? shown = some value := by
  refine ⟨fun places hplaces negative rank => ?number, fun s asked text value => ?expression⟩
  case number =>
    intro x
    have hfits : (x.roundHalfAway places).FitsIn places := fitsIn_roundHalfAway rfl places
    obtain ⟨sign, rounded, hrounded⟩ := hfits.exists_eq_finite
    have hprinted := Decimal.toBinary64_printed (hrounded ▸ hfits).1 (five_pow_lt hplaces) sign
    rw [displayText, hrounded]
    exact ⟨ofText?_fixedText (hrounded ▸ hfits) hplaces, sign, Decimal.printed rounded places,
      rounded, fixedText_finite sign rounded places, rfl, Decimal.isNearest_of_toBinary64 hprinted⟩
  case expression =>
    intro t
    have ht : t.precision ≤ maxPrecision := s.withPrecision_le asked
    constructor
    · intro h
      exact ⟨_, evaluate_of_evaluateValue h, ofText?_of_evaluateValue ht h⟩
    · rintro ⟨shown, hshown, hread⟩
      obtain ⟨x, hx, -⟩ := Reader.bind_eq_ok hshown
      rw [evaluate_of_evaluateValue hx] at hshown
      rw [← Except.ok.inj hshown, ofText?_of_evaluateValue ht hx] at hread
      rw [hx, Option.some.inj hread]

/-- With fifteen places the digits of a great number go beyond those that were typed. The text
still denotes the number. -/
theorem displays_denote_their_values_beyond_shortest :
    let x := finite true ⟨4742964961035996365, by decide⟩
    let shown := "-1234567890.700000047683716".toList
    let t := withPrecision ⟨.finalOnly, 1⟩ 20
    15 ≤ maxPrecision ∧ x.displayText 15 = shown ∧ ofText? shown = some (x.roundHalfAway 15) ∧
      t.evaluate "0-1234567890.7".toList = .ok shown ∧ ofText? shown = some x ∧
      t.evaluateValue "0-1234567890.7".toList = .ok x := by
  intro x shown t
  have hdisplay : x.displayText 15 = shown := by decide +kernel
  have hshown : t.evaluate "0-1234567890.7".toList = .ok shown := by decide +kernel
  have hread : ofText? shown = some x := by decide +kernel
  obtain ⟨hnumber, hexpression⟩ := displays_denote_their_values
  have hrounded := (hnumber 15 (by decide) true ⟨4742964961035996365, by decide⟩).1
  rw [show finite true _ = x from rfl, hdisplay] at hrounded
  exact ⟨by decide, hdisplay, hrounded, hshown, hread,
    (hexpression _ 20 _ x).mpr ⟨shown, hshown, hread⟩⟩

end Settings

end PocketCalculator
