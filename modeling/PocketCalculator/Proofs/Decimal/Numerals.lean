import Mathlib.Data.Nat.Digits.Defs
import PocketCalculator.Proofs.Binary64.Unbounded
import PocketCalculator.Proofs.Decimal.Nearest
import PocketCalculator.Proofs.Decimal.Written
import PocketCalculator.Proofs.Operand

/-!
# Numerals

The number that a numeral denotes, each digit at its own place, is the value of the decimal that is
made of it. So a literal is read as the number nearest to what it denotes, or it is refused, for a
character before its shape and for its shape before its range.
-/
namespace PocketCalculator

open Binary64

namespace Decimal

/-! ## What a numeral denotes -/

/-- The digits before the point count ones, tens and so on from the last, and those after it tenths,
hundredths and so on from the first. -/
def denoted (literal : List Char) : ℚ :=
  let (whole, fraction) := splitPoint literal
  let digit (c : Char) : Nat := c.toNat - '0'.toNat
  Nat.ofDigits 10 (whole.map digit).reverse + Nat.ofDigits 10⁻¹ (0 :: fraction.map digit)

variable {literal whole fraction digits : List Char}

theorem eq_of_isPlain (h : isPlain literal = true) :
    (∀ c ∈ literal, c.isDigit = true) ∨ ∃ whole fraction, literal = whole ++ '.' :: fraction ∧
      (∀ c ∈ whole, c.isDigit = true) ∧ ∀ c ∈ fraction, c.isDigit = true := by
  obtain ⟨hchars, -, hpoints⟩ := isPlain_iff.mp h
  by_cases hmem : '.' ∈ literal
  · obtain ⟨whole, fraction, rfl⟩ := List.append_of_mem hmem
    rw [List.count_append, List.count_cons_self] at hpoints
    have hwhole : '.' ∉ whole := List.count_eq_zero.mp (by omega)
    have hfraction : '.' ∉ fraction := List.count_eq_zero.mp (by omega)
    refine Or.inr ⟨whole, fraction, rfl, fun c hc => ?_, fun c hc => ?_⟩
    · exact (hchars c (by simp [hc])).resolve_right (ne_of_mem_of_not_mem hc hwhole)
    · exact (hchars c (by simp [hc])).resolve_right (ne_of_mem_of_not_mem hc hfraction)
  · exact Or.inl fun c hc => (hchars c hc).resolve_right (ne_of_mem_of_not_mem hc hmem)

/-- Digits from the last on. -/
theorem ofDigits_reverse (digits : List Char) :
    (Nat.ofDigits 10 (digits.map fun c => c.toNat - '0'.toNat).reverse : ℚ) =
      Nat.ofDigitChars 10 digits 0 := by
  induction digits using List.reverseRecOn with
  | nil => simp [Nat.ofDigits]
  | append_singleton digits c ih =>
    rw [List.map_append, List.map_singleton, List.reverse_append, List.reverse_singleton,
      List.singleton_append, Nat.ofDigits, ih, ofDigitChars_concat]
    push_cast
    ring

/-- Digits from the first on, each of a tenth of the place before. -/
theorem ofDigits_inv (digits : List Char) :
    (Nat.ofDigits 10⁻¹ (0 :: digits.map fun c => c.toNat - '0'.toNat) : ℚ) =
      Nat.ofDigitChars 10 digits 0 / 10 ^ digits.length := by
  induction digits with
  | nil => simp [Nat.ofDigits]
  | cons c digits ih =>
    rw [Nat.ofDigits, Nat.cast_zero, zero_add] at ih
    rw [Nat.ofDigitChars_cons, Nat.ofDigitChars_eq_ofDigitChars_zero, Nat.ofDigits, List.map_cons,
      Nat.ofDigits, ih, List.length_cons, pow_succ]
    push_cast
    field_simp
    ring

theorem value_ofDigits (h : isPlain literal = true) : (ofDigits literal).value = denoted literal := by
  rcases eq_of_isPlain h with hdigits | ⟨whole, fraction, rfl, hwhole, hfraction⟩
  · have hpoint := ne_point_of_not_mem (point_not_mem_of_isDigit hdigits)
    have hdecimal : ofDigits literal = ⟨Nat.ofDigitChars 10 literal 0, 0⟩ := by
      rw [ofDigits, List.filter_eq_self.mpr hdigits, List.dropWhile_eq_nil_iff.mpr hpoint]
      rfl
    rw [hdecimal, denoted, splitPoint_of_isDigit hdigits]
    dsimp only
    rw [ofDigits_reverse, ofDigits_inv, value]
    simp
  · rw [ofDigits_of_point hwhole hfraction, denoted, splitPoint_of_point hwhole]
    dsimp only
    rw [ofDigits_reverse, ofDigits_inv, value, Nat.ofDigitChars_append,
      Nat.ofDigitChars_eq_ofDigitChars_zero]
    push_cast
    field_simp

/-! ## Reading decimals -/

theorem exists_roundsTo_denoted (h : isPlain literal = true) :
    ∃ rank, RoundsTo (denoted literal) rank := by
  rw [← value_ofDigits h]
  exact ⟨_, roundsTo_nearestRank (Nat.pow_pos (by decide)) (value_eq_div _).symm⟩

/-- A decimal is read as what it is rounded to, or as an infinity beyond the range. -/
theorem toBinary64_of_roundsTo {d : Decimal} {rank : Nat} (h : RoundsTo d.value rank)
    (negative : Bool) : d.toBinary64 negative =
      if hfinite : rank < infinityRank then .finite negative ⟨rank, hfinite⟩
      else .infinity negative := by
  have hrank := (roundsTo_iff (Nat.pow_pos (by decide)) d.value_eq_div.symm).mp h
  rw [toBinary64, ofUnits]
  simp only [hrank]

end Decimal

/-! ## Reading literals -/

variable {literal : List Char}

theorem readOperand_of_character {before after : List Char} {c : Char}
    (hbefore : ∀ d ∈ before, isOperandChar d = true) (hc : isOperandChar c = false) :
    readOperand (before ++ c :: after) =
      .error (.unexpectedCharacter c (before ++ c :: after)) := by
  rw [readOperand, List.find?_append, find?_of_operandChars hbefore, Option.none_or,
    List.find?_cons_of_pos (by rw [hc]; rfl)]

theorem readOperand_of_misshapen (hchars : ∀ c ∈ literal, isOperandChar c = true)
    (hshape : (∀ c ∈ literal, c.isDigit = false) ∨ 1 < literal.count '.') :
    readOperand literal = .error (.notANumber literal) := by
  have hwrong : (!literal.any Char.isDigit || decide (1 < literal.count '.')) = true := by
    simpa using hshape
  rw [readOperand, find?_of_operandChars hchars]
  exact if_pos hwrong

theorem readOperand_of_isPlain (h : Decimal.isPlain literal = true) {rank : Nat}
    (hrank : RoundsTo (Decimal.denoted literal) rank) : readOperand literal =
      if hfinite : rank < infinityRank then .ok (.finite false ⟨rank, hfinite⟩)
      else .error (.outOfRange literal) := by
  obtain ⟨hchars, hdigit, hpoints⟩ := Decimal.isPlain_iff.mp h
  rw [← Decimal.value_ofDigits h] at hrank
  rw [readOperand_of_operandChars (fun c hc => by simpa [isOperandChar] using hchars c hc) hpoints,
    if_pos (by simpa using hdigit), Decimal.toBinary64_of_roundsTo hrank]
  split
  · exact if_pos rfl
  · exact if_neg Bool.false_ne_true

/-- A literal has a character that no operand has, or a wrong number of digits or points, or it is
a numeral. -/
theorem shape_of_literal (literal : List Char) :
    (∃ before c after, literal = before ++ c :: after ∧
      (∀ d ∈ before, isOperandChar d = true) ∧ isOperandChar c = false) ∨
    ((∀ c ∈ literal, isOperandChar c = true) ∧
      ((∀ c ∈ literal, c.isDigit = false) ∨ 1 < literal.count '.')) ∨
    Decimal.isPlain literal = true := by
  cases hfind : literal.find? fun c => !isOperandChar c with
  | some c =>
    obtain ⟨hc, before, after, hsplit, hbefore⟩ := List.find?_eq_some_iff_append.mp hfind
    refine Or.inl ⟨before, c, after, hsplit, fun d hd => ?_, by simpa using hc⟩
    simpa using hbefore d hd
  | none =>
    have hchars : ∀ c ∈ literal, isOperandChar c = true := fun c hc => by
      simpa using List.find?_eq_none.mp hfind c hc
    by_cases hshape : (∀ c ∈ literal, c.isDigit = false) ∨ 1 < literal.count '.'
    · exact Or.inr (Or.inl ⟨hchars, hshape⟩)
    · rw [not_or, not_lt, not_forall] at hshape
      refine Or.inr (Or.inr (Decimal.isPlain_iff.mpr ⟨fun c hc => ?_, ?_, hshape.2⟩))
      · simpa [isOperandChar] using hchars c hc
      · simpa using hshape.1

/-- A literal is read exactly if it is a numeral that denotes a number in range, and then as the
magnitude that this number is rounded to, without a sign. Otherwise the first character that no
operand has is reported, or else the shape of the literal, or else its range. -/
theorem operands_are_read_as_decimals (literal : List Char) :
    (∀ x, readOperand literal = .ok x ↔ Decimal.isPlain literal = true ∧
      ∃ rank : Fin infinityRank, RoundsTo (Decimal.denoted literal) rank ∧
        x = .finite false rank) ∧
    ∀ fault, readOperand literal = .error fault ↔
      (∃ before c after, literal = before ++ c :: after ∧
        (∀ d ∈ before, isOperandChar d = true) ∧ isOperandChar c = false ∧
        fault = .unexpectedCharacter c literal ∧ fault.detail =
          "unexpected character ".toList ++ Fault.quoted [c] ++ " in ".toList ++
            Fault.quoted literal) ∨
      ((∀ c ∈ literal, isOperandChar c = true) ∧
        ((∀ c ∈ literal, c.isDigit = false) ∨ 1 < literal.count '.') ∧
        fault = .notANumber literal ∧ fault.detail = Fault.quoted literal) ∨
      (Decimal.isPlain literal = true ∧
        (∃ rank, infinityRank ≤ rank ∧ RoundsTo (Decimal.denoted literal) rank) ∧
        fault = .outOfRange literal ∧
          fault.detail = Fault.quoted literal ++ " is out of range".toList) := by
  refine ⟨fun x => ⟨fun h => ?read, ?isRead⟩, fun fault => ⟨fun h => ?refused, ?isRefused⟩⟩
  case read =>
    rcases shape_of_literal literal with ⟨before, c, after, rfl, hbefore, hc⟩ | ⟨hchars, hshape⟩ |
      hplain
    · rw [readOperand_of_character hbefore hc] at h
      cases h
    · rw [readOperand_of_misshapen hchars hshape] at h
      cases h
    · obtain ⟨rank, hrank⟩ := Decimal.exists_roundsTo_denoted hplain
      rw [readOperand_of_isPlain hplain hrank] at h
      split at h
      · rename_i hfinite
        cases h
        exact ⟨hplain, ⟨rank, hfinite⟩, hrank, rfl⟩
      · cases h
  case isRead =>
    rintro ⟨hplain, rank, hrank, rfl⟩
    rw [readOperand_of_isPlain hplain hrank, dif_pos rank.isLt]
  case refused =>
    rcases shape_of_literal literal with ⟨before, c, after, rfl, hbefore, hc⟩ | ⟨hchars, hshape⟩ |
      hplain
    · rw [readOperand_of_character hbefore hc] at h
      cases h
      exact Or.inl ⟨before, c, after, rfl, hbefore, hc, rfl, rfl⟩
    · rw [readOperand_of_misshapen hchars hshape] at h
      cases h
      exact Or.inr (Or.inl ⟨hchars, hshape, rfl, rfl⟩)
    · obtain ⟨rank, hrank⟩ := Decimal.exists_roundsTo_denoted hplain
      rw [readOperand_of_isPlain hplain hrank] at h
      split at h
      · cases h
      · rename_i hinfinite
        cases h
        exact Or.inr (Or.inr ⟨hplain, ⟨rank, not_lt.mp hinfinite, hrank⟩, rfl, rfl⟩)
  case isRefused =>
    rintro (⟨before, c, after, rfl, hbefore, hc, rfl, -⟩ | ⟨hchars, hshape, rfl, -⟩ |
      ⟨hplain, ⟨rank, hinfinite, hrank⟩, rfl, -⟩)
    · exact readOperand_of_character hbefore hc
    · exact readOperand_of_misshapen hchars hshape
    · rw [readOperand_of_isPlain hplain hrank, dif_neg (not_lt.mpr hinfinite)]

-- The character is reported, although it comes after two points.
example : readOperand "1..e".toList = .error (.unexpectedCharacter 'e' "1..e".toList) := by
  decide +kernel

end PocketCalculator
