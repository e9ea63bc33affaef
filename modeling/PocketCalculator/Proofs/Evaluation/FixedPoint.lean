import PocketCalculator.Proofs.Decimal.Printed
import PocketCalculator.Proofs.Decimal.Rounding
import PocketCalculator.Proofs.Evaluation.Finite
import PocketCalculator.Proofs.Evaluation.Outcomes
import PocketCalculator.Proofs.Reading.Exact
import PocketCalculator.Proofs.Scanning.Joined

/-!
# What is shown evaluates to itself

A shown number is an operand, perhaps after a minus sign, so it is read as the number it was
printed from. That number was rounded before it was shown, and is not changed by rounding it
again, so it is shown as before.
-/
namespace PocketCalculator

/-- The tree of an operand after a minus sign or without one. -/
def Expression.signed (negative : Bool) (value : Binary64) : Expression :=
  if negative then .negate (.number value) else .number value

variable {digits : List Char} {value : Binary64} {s : Settings} {negative : Bool}

/-! ## Reading an operand -/

theorem Token.scan_withSign (h : readOperand digits = .ok value) (negative : Bool) :
    scan (withSign negative digits) =
      if negative then [.negation, .literal digits] else [.literal digits] := by
  cases negative with
  | false => exact scan_operand h
  | true =>
    rw [withSign, if_pos rfl, scan_minus, scan_operand h]
    rfl

theorem Expression.parse_withSign (h : readOperand digits = .ok value) (negative : Bool) :
    parse (withSign negative digits) = .ok (signed negative value) := by
  have hterminal : (Token.literal digits).terminal = .ok (.number value) := by
    rw [Token.terminal, h]
    rfl
  have hdenotes : Denotes (Token.scan (withSign negative digits))
      (signed negative value) := by
    rw [Token.scan_withSign h]
    cases negative with
    | false =>
      exact ⟨[.number value], .cons hterminal .nil,
        .term (.unary (.signed 0 (.number value)))⟩
    | true =>
      exact ⟨[.negation, .number value], .cons rfl (.cons hterminal .nil),
        .term (.unary (.signed 1 (.number value)))⟩
  have hnests : Token.brackets.NestsWithin maxGroups
      (Token.scan (withSign negative digits)) := by
    apply Brackets.nestsWithin_of_not_mem
    rw [Token.scan_withSign h]
    cases negative <;> simp [Token.brackets]
  have hheight : (signed negative value).height ≤ maxHeight := by
    cases negative <;> simp [signed, height, maxHeight]
  rcases ofTokens_of_denotes hdenotes with hok | ⟨limit, _, ⟨_, hlimit⟩ | ⟨_, hlimit⟩⟩
  · exact hok
  · exact absurd hnests hlimit
  · exact absurd hheight (Nat.not_le_of_lt hlimit)

/-! ## Evaluating an operand -/

/-- A rounded number is shown for every operand that is read as its magnitude. -/
theorem Settings.evaluate_withSign {rank : Fin infinityRank}
    (hread : readOperand digits = .ok (.finite false rank))
    (hfits : (Binary64.finite negative rank).FitsIn s.precision) :
    s.evaluate (withSign negative digits) =
      .ok ((Binary64.finite negative rank).fixedText s.precision) := by
  have hreduce : s.reduce (.signed negative (.finite false rank)) = .ok (.finite negative rank) := by
    cases negative <;> rfl
  rw [evaluate_of_reduce (Expression.parse_withSign hread negative) hreduce, Binary64.displayText,
    hfits.roundHalfAway_eq, hfits.roundHalfAway_eq]

theorem Binary64.fixedText_finite (negative : Bool) (rank : Fin infinityRank) (places : Nat) :
    (finite negative rank).fixedText places =
      withSign negative (Decimal.printed rank places).text := rfl

theorem five_pow_lt {precision : Nat} (h : precision ≤ Settings.maxPrecision) :
    5 ^ precision < 2 ^ 53 :=
  (Nat.pow_le_pow_right (by decide) h).trans_lt (by decide)

theorem readOperand_printed {rank : Fin infinityRank} {places : Nat}
    (hfits : (Decimal.shortest rank).places ≤ places) (hplaces : 5 ^ places < 2 ^ 53) :
    readOperand (Decimal.printed rank places).text = .ok (.finite false rank) := by
  have hprinted := Decimal.toBinary64_printed hfits hplaces false
  rw [readOperand_text (by rw [hprinted]; rfl), hprinted]

/-! ## Evaluating what is shown -/

theorem Settings.fitsIn_of_evaluateValue {text : List Char} {x : Binary64}
    (h : s.evaluateValue text = .ok x) : x.FitsIn s.precision := by
  obtain ⟨y, hy, rfl⟩ := exists_rounded_of_evaluateValue h
  exact Binary64.fitsIn_roundHalfAway hy _

theorem Settings.exists_fitsIn_of_evaluate {text shown : List Char}
    (h : s.evaluate text = .ok shown) :
    ∃ negative rank, (Binary64.finite negative rank).FitsIn s.precision ∧
      shown = (Binary64.finite negative rank).fixedText s.precision := by
  obtain ⟨x, hx, hshown⟩ := Reader.bind_eq_ok h
  cases hshown
  have hfits := fitsIn_of_evaluateValue hx
  obtain ⟨negative, rank, rfl⟩ := hfits.exists_eq_finite
  exact ⟨negative, rank, hfits, by rw [Binary64.displayText, hfits.roundHalfAway_eq]⟩

/-- What is shown of an expression is shown of itself. -/
theorem Settings.evaluate_shown (hs : s.precision ≤ maxPrecision) {text shown : List Char}
    (h : s.evaluate text = .ok shown) : s.evaluate shown = .ok shown := by
  obtain ⟨negative, rank, hfits, rfl⟩ := exists_fitsIn_of_evaluate h
  have hread := readOperand_printed hfits.1 (five_pow_lt hs)
  have hevaluate := evaluate_withSign hread hfits
  rwa [← Binary64.fixedText_finite] at hevaluate

/-- The digits that are shown may go beyond those of the shortest decimal. -/
theorem Settings.evaluate_shown_beyond_shortest :
    let s : Settings := ⟨.everyStep, 15⟩
    let shown := "-1234567890.700000047683716".toList
    s.precision ≤ maxPrecision ∧ s.evaluate "0-1234567890.7".toList = .ok shown ∧
      s.evaluate shown = .ok shown := by
  have hshown : Settings.evaluate ⟨.everyStep, 15⟩ "0-1234567890.7".toList =
      .ok "-1234567890.700000047683716".toList := by decide +kernel
  exact ⟨by decide, hshown, evaluate_shown (by decide) hshown⟩

theorem trimFraction_withSign (negative : Bool) (digits : List Char) :
    Decimal.trimFraction (withSign negative digits) =
      withSign negative (Decimal.trimFraction digits) := by
  cases negative with
  | false => rfl
  | true => exact Decimal.trimFraction_cons (by decide) (by decide) digits

theorem readOperand_trimmed {d : Decimal} {rank : Fin infinityRank}
    (h : d.toBinary64 false = .finite false rank) :
    readOperand (Decimal.trimFraction d.text) = .ok (.finite false rank) := by
  have htrimmed := Decimal.toBinary64_trimmed false d.places d.coefficient
  rw [h] at htrimmed
  rw [Decimal.trimFraction_text, readOperand_text (by rw [htrimmed]; rfl), htrimmed]

theorem Settings.evaluate_trimFraction (hs : s.precision ≤ maxPrecision)
    {text shown : List Char} (h : s.evaluate text = .ok shown) :
    s.evaluate (Decimal.trimFraction shown) = .ok shown := by
  obtain ⟨negative, rank, hfits, rfl⟩ := exists_fitsIn_of_evaluate h
  have hread := readOperand_trimmed (Decimal.toBinary64_printed hfits.1 (five_pow_lt hs) false)
  rw [Binary64.fixedText_finite, trimFraction_withSign]
  exact evaluate_withSign hread hfits

end PocketCalculator
