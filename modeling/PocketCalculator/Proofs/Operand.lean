import PocketCalculator.Operand
import PocketCalculator.Operator
import PocketCalculator.Proofs.Decimal.Digits
import PocketCalculator.Text.WhiteSpace

/-!
# Operands

No character of an operand has another meaning, and the text of a decimal is an operand that
is read as the number nearest to it.
-/
namespace PocketCalculator

/-! ## The characters of operands -/

theorem isOperandChar_of_isDigit {c : Char} (h : c.isDigit = true) : isOperandChar c = true := by
  simp [isOperandChar, h]

theorem ofGlyph?_of_isOperandChar {c : Char} (h : isOperandChar c = true) :
    Operator.ofGlyph? c = none := by
  unfold Operator.ofGlyph?
  split <;> first | rfl | cases h

theorem not_isWhiteSpace_of_isOperandChar {c : Char} (h : isOperandChar c = true) :
    Text.isWhiteSpace c = false := by
  simp only [isOperandChar, Bool.or_eq_true, beq_iff_eq] at h
  rcases h with h | rfl
  · rw [Char.isDigit_iff_toNat] at h
    have hlow : 48 ≤ c.toNat := h.1
    have hhigh : c.toNat ≤ 57 := h.2
    simp only [Text.isWhiteSpace, Text.whiteSpaceRanges, List.any_cons, List.any_nil,
      Bool.or_eq_false_iff, Bool.and_eq_false_iff, decide_eq_false_iff_not]
    refine ⟨?_, ?_, ?_, ?_, ?_, ?_, ?_, ?_, ?_, ?_, trivial⟩ <;> omega
  · decide

theorem not_isDigit_of_isWhiteSpace {c : Char} (h : Text.isWhiteSpace c = true) :
    c.isDigit = false := by
  cases hdigit : c.isDigit with
  | false => rfl
  | true =>
    rw [not_isWhiteSpace_of_isOperandChar (isOperandChar_of_isDigit hdigit)] at h
    cases h

theorem operandChars_of_readOperand {literal : List Char} {value : Binary64}
    (h : readOperand literal = .ok value) :
    literal ≠ [] ∧ ∀ c ∈ literal, isOperandChar c = true := by
  unfold readOperand at h
  split at h
  · cases h
  · rename_i hfind
    refine ⟨?_, fun c hc => by simpa using List.find?_eq_none.mp hfind c hc⟩
    rintro rfl
    cases h

theorem fault_of_readOperand {literal : List Char} {fault : Fault}
    (h : readOperand literal = .error fault) :
    (∃ c, fault = .unexpectedCharacter c literal) ∨ fault = .notANumber literal ∨
      fault = .outOfRange literal := by
  unfold readOperand at h
  split at h
  · cases h
    exact Or.inl ⟨_, rfl⟩
  · split at h
    · cases h
      exact Or.inr (Or.inl rfl)
    · dsimp only at h
      split at h
      · cases h
      · cases h
        exact Or.inr (Or.inr rfl)

theorem eq_toBinary64_of_readOperand {literal : List Char} {value : Binary64}
    (h : readOperand literal = .ok value) :
    value = (Decimal.ofDigits literal).toBinary64 false := by
  unfold readOperand at h
  split at h
  · cases h
  · split at h
    · cases h
    · dsimp only at h
      split at h
      · cases h
        rfl
      · cases h

theorem find?_of_operandChars {literal : List Char} (h : ∀ c ∈ literal, isOperandChar c = true) :
    literal.find? (fun c => !isOperandChar c) = none := by
  rw [List.find?_eq_none]
  intro c hc
  simp [h c hc]

/-- With the right characters and at most one point, what is read depends on there being a digit
and on the range. -/
theorem readOperand_of_operandChars {literal : List Char}
    (hchars : ∀ c ∈ literal, isOperandChar c = true) (hpoints : literal.count '.' ≤ 1) :
    readOperand literal =
      if literal.any Char.isDigit then
        if ((Decimal.ofDigits literal).toBinary64 false).isFinite then
          .ok ((Decimal.ofDigits literal).toBinary64 false)
        else .error (.outOfRange literal)
      else .error (.notANumber literal) := by
  rw [readOperand, find?_of_operandChars hchars]
  cases literal.any Char.isDigit with
  | false => simp only [Bool.not_false, Bool.true_or, Bool.false_eq_true, ↓reduceIte]
  | true =>
    simp only [Bool.not_true, Bool.false_or, decide_eq_true_eq, Nat.not_lt.mpr hpoints,
      ↓reduceIte]

/-! ## Decimals as operands -/

theorem isOperandChar_of_mem_text {d : Decimal} {c : Char} (h : c ∈ d.text) :
    isOperandChar c = true := by
  unfold Decimal.text at h
  dsimp only at h
  split at h
  · exact isOperandChar_of_isDigit (Decimal.isDigit_of_mem_whole c h)
  · rcases List.mem_append.mp h with h | h
    · exact isOperandChar_of_isDigit (Decimal.isDigit_of_mem_whole c h)
    · rcases List.mem_cons.mp h with rfl | h
      · rfl
      · exact isOperandChar_of_isDigit (Decimal.isDigit_of_mem_fixedDigits h)

theorem readOperand_text {d : Decimal} (h : (d.toBinary64 false).isFinite = true) :
    readOperand d.text = .ok (d.toBinary64 false) := by
  have hdigits : d.text.any Char.isDigit = true := by
    obtain ⟨c, hlast, hc⟩ := d.exists_getLast?_text
    exact List.any_eq_true.mpr ⟨c, List.mem_of_getLast? hlast, hc⟩
  rw [readOperand_of_operandChars (fun _ => isOperandChar_of_mem_text) d.count_point_text_le,
    Decimal.ofDigits_text, if_pos hdigits, if_pos h]

end PocketCalculator
