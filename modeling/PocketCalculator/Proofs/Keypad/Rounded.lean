import PocketCalculator.Proofs.Evaluation.Rounded
import PocketCalculator.Proofs.Keypad.Submission

/-!
# Typed operands need no rounding

An operand is not typed further than the precision, whatever else is pressed, and what is
submitted has no other operands. So each is read from a decimal with few places, as a number
that rounding leaves alone.
-/
namespace PocketCalculator

namespace Keypad

variable {precision : Nat}

theorem places_ofDigits (operand : List Char) :
    (Decimal.ofDigits operand).places = (fractionOf operand).length := by
  rw [fractionOf, List.length_tail]
  rfl

theorem Admits.roundHalfAway_eq {operand : List Char} (h : Admits precision operand)
    {x : Binary64} (hread : readOperand operand = .ok x) : x.roundHalfAway precision = x := by
  have hfinite := isFinite_of_readOperand hread
  obtain rfl := eq_toBinary64_of_readOperand hread
  have hplaces : (Decimal.ofDigits operand).places ≤ precision := by
    rw [places_ofDigits]
    exact h.fraction
  exact (Binary64.fitsIn_toBinary64 hplaces hfinite).roundHalfAway_eq

/-- The literals of what is submitted are operands that could be typed. -/
theorem Typable.admits_literal {w literal : List Char} (h : Typable precision w)
    (hliteral : .literal literal ∈ Token.scan (Keypad.submission w)) :
    Admits precision literal := by
  by_cases hne : Keypad.submission w = []
  · rw [hne] at hliteral
    cases hliteral
  · have hsubmitted := (h.submission hne).typable
    obtain ⟨before, after, hoperand⟩ := (literal_mem_scan hsubmitted.typed literal).mp hliteral
    exact hsubmitted.operands before literal after hoperand

/-- Whatever keys are pressed, the operands of what is submitted are rounded already: neither
an operation that rounds at every step nor rounding them in advance changes them. -/
theorem typed_operands_are_rounded {presses : List (Settings × Key)}
    (hs : ∀ p ∈ presses, p.1.precision ≤ precision) :
    ∃ k, pressEach presses = .ok k ∧
      (∀ literal x, .literal literal ∈ Token.scan (submission k.input) →
        readOperand literal = .ok x →
        x.roundHalfAway precision = x ∧ ∀ op b,
          Settings.calculate ⟨.everyStep, precision⟩ op x b =
            (op.apply x (b.roundHalfAway precision)).map (·.roundHalfAway precision) ∧
          Settings.calculate ⟨.everyStep, precision⟩ op b x =
            (op.apply (b.roundHalfAway precision) x).map (·.roundHalfAway precision)) ∧
      ∀ t, Expression.parse (submission k.input) = .ok t → t.roundNumbers precision = t := by
  obtain ⟨k, hrun, hk⟩ := exists_pressEach hs
  have hrounded : ∀ literal x, .literal literal ∈ Token.scan (submission k.input) →
      readOperand literal = .ok x → x.roundHalfAway precision = x :=
    fun _ _ hliteral hread => (hk.typable.admits_literal hliteral).roundHalfAway_eq hread
  refine ⟨k, hrun, fun literal x hliteral hread => ?_, fun t ht => ?_⟩
  · have hx := hrounded literal x hliteral hread
    exact ⟨hx, fun op b => by simp only [Settings.calculate, hx, and_self]⟩
  · exact (Expression.allNumbers_of_parse ht hrounded).roundNumbers_eq

/-- The digit after the last one that is kept is not typed. -/
theorem typed_operands_are_rounded_past_precision :
    let presses := [Key.digit 1, .point, .digit 5, .digit 5, .operator .multiply, .digit 2,
      .operator .add].map fun key => (Settings.default, key)
    let x := (⟨15, 1⟩ : Decimal).toBinary64 false
    (∀ p ∈ presses, p.1.precision ≤ 1) ∧
      ∃ k, pressEach presses = .ok k ∧ submission k.input = "1.5X2".toList ∧
        readOperand "1.5".toList = .ok x ∧ x.roundHalfAway 1 = x := by
  intro presses x
  have hpresses : ∀ p ∈ presses, p.1.precision ≤ 1 := by decide
  have hresult : pressEach presses = .ok ⟨"1.5X2+".toList, .nothing, 0⟩ := by decide +kernel
  have hread : readOperand "1.5".toList = .ok x := by decide +kernel
  obtain ⟨k, hrun, hliterals, -⟩ := typed_operands_are_rounded hpresses
  rw [hresult] at hrun
  cases hrun
  exact ⟨hpresses, _, hresult, by decide, hread, (hliterals _ _ (by decide) hread).1⟩

end Keypad

end PocketCalculator
