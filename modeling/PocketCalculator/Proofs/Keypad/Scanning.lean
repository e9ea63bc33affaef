import PocketCalculator.Proofs.Keypad.Accepts
import PocketCalculator.Proofs.Scanning.Steps

/-!
# Scanning a typed text

What the scanner makes of the beginning of a typed text, which depends on the next character
where that may be a digit after a closing parenthesis. The literals are the operands of the
text, each complete once a character that no operand has follows it.
-/
namespace PocketCalculator

namespace Keypad

open Brackets Scanner

variable {u : List Char} {after : Option Char}

theorem not_isWhiteSpace_of_isTyped {c : Char} (h : IsTyped c) :
    Text.isWhiteSpace c = false := by
  rcases h with h | ⟨op, rfl⟩ | rfl | rfl
  · exact not_isWhiteSpace_of_isOperandChar h
  · cases op <;> decide
  · decide
  · decide

theorem not_isOperandChar_glyph (op : Operator) : ¬isOperandChar op.glyph = true :=
  fun h => not_isGlyph_of_isOperandChar h ⟨op, rfl⟩

/-! ## One character -/

theorem step_operandChar {c : Char} (h : isOperandChar c = true) (s : Scanner)
    (after : Option Char) : s.step c after = { s with pending := c :: s.pending } :=
  step_literalChar (isLiteralChar_of_isOperandChar h) s after

theorem step_glyph (op : Operator) (s : Scanner) (after : Option Char) :
    s.step op.glyph after = s.flush.emitOperator op := by
  rw [step, not_isWhiteSpace_of_isTyped (Or.inr (Or.inl ⟨op, rfl⟩)), Operator.ofGlyph?_glyph]
  rfl

/-! ## The tokens before a character -/

/-- The tokens that are complete when a text has been read that goes on with `after`. -/
def complete (u : List Char) (after : Option Char) : List Token :=
  (Scanner.initial.feed after u).emitted.reverse

/-- The literal of a run of digits and points, if there are any. -/
def literalOf (operand : List Char) : List Token :=
  if operand = [] then [] else [.literal operand]

/-- The tokens of a text that goes on with `after`, its last operand included. -/
def tokensOf (u : List Char) (after : Option Char) : List Token :=
  complete u after ++ literalOf (lastOperand u)

theorem pending_feed (hu : ∀ c ∈ u, IsTyped c) (after : Option Char) :
    (Scanner.initial.feed after u).pending = (lastOperand u).reverse := by
  induction u using List.reverseRecOn generalizing after with
  | nil => rfl
  | append_singleton u c ih =>
    have ih := ih fun d hd => hu d (by simp [hd])
    rw [feed_append, lastOperand_append]
    rcases hu c (by simp) with hc | ⟨op, rfl⟩ | rfl | rfl
    · rw [step_operandChar hc, if_pos hc, List.reverse_append, ← ih]
      rfl
    · rw [step_glyph, emitOperator_pending, flush_pending, if_neg (not_isOperandChar_glyph op)]
      rfl
    · rw [step_openParen, emitOpen_pending, flush_pending]
      rfl
    · rw [step_closeParen, emitClose_pending, flush_pending]
      rfl

theorem flush_feed (hu : ∀ c ∈ u, IsTyped c) (after : Option Char) :
    (Scanner.initial.feed after u).flush = ⟨(tokensOf u after).reverse, []⟩ := by
  have hpending := pending_feed hu after
  rw [tokensOf, complete, List.reverse_append, List.reverse_reverse, flush, literalOf]
  generalize Scanner.initial.feed after u = s at hpending ⊢
  by_cases hlast : lastOperand u = []
  · rw [hlast, List.reverse_nil] at hpending
    rw [hpending, if_pos hlast, if_pos List.isEmpty_nil, List.reverse_nil, List.nil_append,
      ← hpending]
  · rw [hpending, if_neg (by simpa using hlast), if_neg hlast, List.reverse_reverse]
    rfl

theorem scan_eq_tokensOf (hu : ∀ c ∈ u, IsTyped c) : Token.scan u = tokensOf u none := by
  rw [Token.scan, run_eq_feed, flush_feed hu, List.reverse_reverse]

theorem complete_operandChar {c : Char} (h : isOperandChar c = true) (u : List Char)
    (after : Option Char) : complete (u ++ [c]) after = complete u (some c) := by
  rw [complete, feed_append, step_operandChar h]
  rfl

theorem complete_glyph (hu : ∀ c ∈ u, IsTyped c) (op : Operator) (after : Option Char) :
    complete (u ++ [op.glyph]) after = tokensOf u (some op.glyph) ++
      [if op = .subtract && !(tokensOf u (some op.glyph)).getLast?.any Token.isLiteral
        then .negation else .operator op] := by
  rw [complete, feed_append, step_glyph, flush_feed hu, emitOperator, List.head?_reverse]
  split <;> simp [emit]

theorem complete_openParen (hu : ∀ c ∈ u, IsTyped c) (after : Option Char) :
    complete (u ++ ['(']) after = tokensOf u (some '(') ++
      if (tokensOf u (some '(')).getLast?.any Token.endsValue
        then [.operator .multiply, .openParen] else [.openParen] := by
  rw [complete, feed_append, step_openParen, flush_feed hu, emitOpen, List.head?_reverse]
  split <;> simp [emit]

theorem complete_closeParen (hu : ∀ c ∈ u, IsTyped c) (after : Option Char) :
    complete (u ++ [')']) after = tokensOf u (some ')') ++
      if after.any Char.isDigit then [.closeParen, .operator .multiply] else [.closeParen] := by
  rw [complete, feed_append, step_closeParen, flush_feed hu, emitClose]
  split <;> simp [emit]

theorem tokensOf_append_other {c : Char} (hc : ¬isOperandChar c = true) (u : List Char)
    (after : Option Char) : tokensOf (u ++ [c]) after = complete (u ++ [c]) after := by
  rw [tokensOf, lastOperand_append, if_neg hc, literalOf, if_pos rfl, List.append_nil]

theorem tokensOf_append_operandChar {c : Char} (hc : isOperandChar c = true) (u : List Char)
    (after : Option Char) :
    tokensOf (u ++ [c]) after =
      complete u (some c) ++ [.literal (lastOperand u ++ [c])] := by
  rw [tokensOf, complete_operandChar hc, lastOperand_append, if_pos hc, literalOf,
    if_neg (by simp)]

/-- Whether a value stands at the end of a text that goes on with `after`. A digit after a
closing parenthesis is to be multiplied with the group. -/
def endsValue (u : List Char) (after : Option Char) : Bool :=
  u.getLast?.any fun c => isOperandChar c || c == ')' && !after.any Char.isDigit

theorem endsValue_operandChar {c : Char} (hc : isOperandChar c = true) (u : List Char)
    (after : Option Char) : endsValue (u ++ [c]) after = true := by
  simp [endsValue, hc]

theorem endsValue_glyph (op : Operator) (u : List Char) (after : Option Char) :
    endsValue (u ++ [op.glyph]) after = false := by
  rw [endsValue, List.getLast?_concat, Option.any_some]
  cases op <;> rfl

/-- What the scanner sees before it is told by the last character of the text. -/
theorem last_tokensOf (hu : ∀ c ∈ u, IsTyped c) (after : Option Char) :
    (tokensOf u after).getLast?.any Token.isLiteral = u.getLast?.any isOperandChar ∧
      (tokensOf u after).getLast?.any Token.endsValue = endsValue u after := by
  rcases List.eq_nil_or_concat u with rfl | ⟨u, c, rfl⟩
  · exact ⟨rfl, rfl⟩
  · rw [List.concat_eq_append] at hu ⊢
    have hu' : ∀ d ∈ u, IsTyped d := fun d hd => hu d (by simp [hd])
    rw [List.getLast?_concat, Option.any_some]
    rcases hu c (by simp) with hc | ⟨op, rfl⟩ | rfl | rfl
    · rw [tokensOf_append_operandChar hc, List.getLast?_concat, endsValue_operandChar hc, hc]
      exact ⟨rfl, rfl⟩
    · rw [tokensOf_append_other (not_isOperandChar_glyph op), complete_glyph hu',
        List.getLast?_concat, endsValue_glyph, Bool.eq_false_iff.mpr (not_isOperandChar_glyph op)]
      split <;> exact ⟨rfl, rfl⟩
    · rw [tokensOf_append_other (by decide), complete_openParen hu']
      split <;> simp [endsValue] <;> decide
    · rw [tokensOf_append_other (by decide), complete_closeParen hu']
      split <;> simp [endsValue, *] <;> decide

end Keypad

end PocketCalculator
