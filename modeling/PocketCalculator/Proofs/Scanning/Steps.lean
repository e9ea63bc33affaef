import PocketCalculator.Proofs.Operand
import PocketCalculator.Token.Scan

/-!
# Steps of the scanner

A character is white space, an operator, a parenthesis, or part of a literal, and that alone
decides what the scanner does with it. What it does with a text depends on the next character
where that may be a digit after a closing parenthesis, and on nothing else that follows.
-/
namespace PocketCalculator

/-- A character that has no meaning of its own, so that it becomes part of a literal. -/
structure IsLiteralChar (c : Char) : Prop where
  not_whiteSpace : Text.isWhiteSpace c = false
  not_glyph : Operator.ofGlyph? c = none
  ne_open : c ≠ '('
  ne_close : c ≠ ')'

instance : DecidablePred IsLiteralChar := fun c =>
  decidable_of_iff (Text.isWhiteSpace c = false ∧ Operator.ofGlyph? c = none ∧ c ≠ '(' ∧ c ≠ ')')
    ⟨fun ⟨hspace, hglyph, hopen, hclose⟩ => ⟨hspace, hglyph, hopen, hclose⟩,
      fun h => ⟨h.not_whiteSpace, h.not_glyph, h.ne_open, h.ne_close⟩⟩

theorem isLiteralChar_of_isOperandChar {c : Char} (h : isOperandChar c = true) :
    IsLiteralChar c where
  not_whiteSpace := not_isWhiteSpace_of_isOperandChar h
  not_glyph := ofGlyph?_of_isOperandChar h
  ne_open := by rintro rfl; cases h
  ne_close := by rintro rfl; cases h

namespace Scanner

/-! ## One character -/

theorem step_cases (s : Scanner) (c : Char) (next : Option Char) :
    (Text.isWhiteSpace c = true ∧ s.step c next = s.flush) ∨
      (∃ op, Operator.ofGlyph? c = some op ∧ s.step c next = s.flush.emitOperator op) ∨
      (c = '(' ∧ s.step c next = s.flush.emitOpen) ∨
      (c = ')' ∧ s.step c next = s.flush.emitClose next) ∨
      (IsLiteralChar c ∧ s.step c next = { s with pending := c :: s.pending }) := by
  cases hspace : Text.isWhiteSpace c with
  | true => exact Or.inl ⟨rfl, by rw [step, if_pos hspace]⟩
  | false =>
    rw [step, if_neg (by simp [hspace])]
    refine Or.inr ?_
    cases hglyph : Operator.ofGlyph? c with
    | some op => exact Or.inl ⟨op, rfl, rfl⟩
    | none =>
      refine Or.inr ?_
      by_cases hopen : c = '('
      · exact Or.inl ⟨hopen, if_pos hopen⟩
      · refine Or.inr ?_
        simp only [hopen, ↓reduceIte]
        by_cases hclose : c = ')'
        · exact Or.inl ⟨hclose, if_pos hclose⟩
        · exact Or.inr ⟨⟨hspace, hglyph, hopen, hclose⟩, if_neg hclose⟩

theorem step_literalChar {c : Char} (h : IsLiteralChar c) (s : Scanner) (next : Option Char) :
    s.step c next = { s with pending := c :: s.pending } := by
  rw [step, h.not_whiteSpace, h.not_glyph]
  simp only [Bool.false_eq_true, h.ne_open, h.ne_close, ↓reduceIte]

theorem step_whiteSpace {c : Char} (h : Text.isWhiteSpace c = true) (s : Scanner)
    (next : Option Char) : s.step c next = s.flush := if_pos h

theorem step_openParen (s : Scanner) (next : Option Char) :
    s.step '(' next = s.flush.emitOpen := rfl

theorem step_closeParen (s : Scanner) (next : Option Char) :
    s.step ')' next = s.flush.emitClose next := rfl

theorem flush_pending (s : Scanner) : s.flush.pending = [] := by
  unfold flush
  split
  · rename_i hempty
    exact List.isEmpty_iff.mp hempty
  · rfl

theorem flush_of_pending {s : Scanner} (h : s.pending = []) : s.flush = s := by
  rw [flush, h, List.isEmpty_nil, if_pos rfl]

theorem flush_flush (s : Scanner) : s.flush.flush = s.flush := flush_of_pending s.flush_pending

theorem emitOperator_pending (s : Scanner) (op : Operator) :
    (s.emitOperator op).pending = s.pending := by
  unfold emitOperator
  split <;> rfl

theorem emitOpen_pending (s : Scanner) : s.emitOpen.pending = s.pending := by
  unfold emitOpen
  split <;> rfl

theorem emitClose_pending (s : Scanner) (after : Option Char) :
    (s.emitClose after).pending = s.pending := by
  unfold emitClose
  split <;> rfl

/-! ## A text -/

/-- Reads a text that goes on with the character `after`, if with any. -/
def feed (s : Scanner) (after : Option Char) : List Char → Scanner
  | [] => s
  | c :: rest => (s.step c (rest.head?.or after)).feed after rest

theorem run_eq_feed (s : Scanner) (text : List Char) : s.run text = (s.feed none text).flush := by
  induction text generalizing s with
  | nil => rfl
  | cons c rest ih => rw [run, feed, Option.or_none, ih]

theorem feed_append (s : Scanner) (after : Option Char) (u : List Char) (c : Char) :
    s.feed after (u ++ [c]) = (s.feed (some c) u).step c after := by
  induction u generalizing s with
  | nil => rfl
  | cons x u ih =>
    have hhead : (u ++ [c]).head?.or after = u.head?.or (some c) := by
      cases u <;> rfl
    rw [List.cons_append, feed, feed, ih, hhead]

theorem run_append (s : Scanner) (u v : List Char) : s.run (u ++ v) = (s.feed v.head? u).run v := by
  induction u generalizing s with
  | nil => rfl
  | cons x u ih => rw [List.cons_append, run, feed, ih, List.head?_append]

theorem run_append_cons (s : Scanner) (u : List Char) (c : Char) (rest : List Char) :
    s.run (u ++ c :: rest) = ((s.feed (some c) u).step c rest.head?).run rest :=
  s.run_append u (c :: rest)

theorem feed_literal {text : List Char} (h : ∀ c ∈ text, IsLiteralChar c) (s : Scanner)
    (after : Option Char) :
    s.feed after text = { s with pending := text.reverse ++ s.pending } := by
  induction text generalizing s with
  | nil => rfl
  | cons c text ih =>
    rw [feed, step_literalChar (h c (by simp)), ih fun d hd => h d (by simp [hd])]
    simp

theorem run_literal {text : List Char} (hne : text ≠ []) (h : ∀ c ∈ text, IsLiteralChar c)
    (emitted : List Token) :
    Scanner.run ⟨emitted, []⟩ text = ⟨.literal text :: emitted, []⟩ := by
  rw [run_eq_feed, feed_literal h, flush, if_neg (by simpa using hne)]
  simp

/-- Of what follows a text it matters only whether it is a digit. -/
theorem step_congr (s : Scanner) (c : Char) {next next' : Option Char}
    (h : next.any Char.isDigit = next'.any Char.isDigit) : s.step c next = s.step c next' := by
  unfold step emitClose
  rw [h]

theorem feed_congr (s : Scanner) (u : List Char) {after after' : Option Char}
    (h : after.any Char.isDigit = after'.any Char.isDigit) : s.feed after u = s.feed after' u := by
  induction u generalizing s with
  | nil => rfl
  | cons c u ih =>
    rw [feed, feed, ih]
    congr 1
    cases u with
    | nil => exact step_congr s c h
    | cons d u => rfl

/-- What follows matters only to a closing parenthesis. -/
theorem step_next {c : Char} (h : c ≠ ')') (s : Scanner) (next next' : Option Char) :
    s.step c next = s.step c next' := by
  unfold step
  simp only [h, ↓reduceIte]

/-! ## Emitted tokens stay -/

theorem emitted_flush (s : Scanner) : s.emitted <:+ s.flush.emitted := by
  unfold flush
  split
  · exact List.suffix_refl _
  · exact List.suffix_cons _ _

theorem emitted_step (s : Scanner) (c : Char) (next : Option Char) :
    s.emitted <:+ (s.step c next).emitted := by
  rcases s.step_cases c next with ⟨_, h⟩ | ⟨op, _, h⟩ | ⟨_, h⟩ | ⟨_, h⟩ | ⟨_, h⟩
  · rw [h]
    exact s.emitted_flush
  · rw [h]
    refine s.emitted_flush.trans ?_
    unfold emitOperator
    split <;> exact List.suffix_cons _ _
  · rw [h]
    refine s.emitted_flush.trans ?_
    unfold emitOpen
    split
    · exact (List.suffix_cons _ _).trans (List.suffix_cons _ _)
    · exact List.suffix_cons _ _
  · rw [h]
    refine s.emitted_flush.trans ?_
    unfold emitClose
    split
    · exact (List.suffix_cons _ _).trans (List.suffix_cons _ _)
    · exact List.suffix_cons _ _
  · simp [h]

theorem emitted_run (s : Scanner) (text : List Char) : s.emitted <:+ (s.run text).emitted := by
  induction text generalizing s with
  | nil => exact s.emitted_flush
  | cons c rest ih => exact (s.emitted_step c rest.head?).trans (ih _)

end Scanner

end PocketCalculator
