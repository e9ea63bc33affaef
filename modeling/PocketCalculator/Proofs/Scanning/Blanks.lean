import Mathlib.Logic.Relation
import PocketCalculator.Proofs.Evaluation.Outcomes
import PocketCalculator.Proofs.Scanning.Spelling

/-!
# Blanks between characters

White space ends a literal, and it hides the digit after a closing parenthesis. Between characters
that are not read together it does neither, so a text is evaluated as it is without it.
-/
namespace PocketCalculator

/-- The characters are read together if nothing stands between them: as parts of one literal, or
as a group and the digit that multiplies it. -/
def Touches (a b : Char) : Prop :=
  IsLiteralChar a ∧ IsLiteralChar b ∨ a = ')' ∧ b.isDigit = true

instance (a b : Char) : Decidable (Touches a b) := inferInstanceAs (Decidable (_ ∨ _))

/-- White space is taken away between characters that do not touch, or one character of an operator
is replaced by the one it is shown with. -/
inductive Edit : List Char → List Char → Prop
  | blank {u v : List Char} {w : Char} (whiteSpace : Text.isWhiteSpace w = true)
      (apart : ∀ a ∈ u.getLast?, ∀ b ∈ v.head?, ¬Touches a b) : Edit (u ++ w :: v) (u ++ v)
  | spelling {u v : List Char} {c : Char} : Edit (u ++ c :: v) (u ++ Operator.spell c :: v)

/-- The texts have the same tokens, and under all settings the same value, and they show the same
value or fail with the same fault. -/
structure Alike (text text' : List Char) : Prop where
  tokens : Token.scan text = Token.scan text'
  value : ∀ s : Settings, s.evaluateValue text = s.evaluateValue text'
  shown : ∀ s : Settings, s.evaluate text = s.evaluate text'

theorem Alike.of_tokens {text text' : List Char} (h : Token.scan text = Token.scan text') :
    Alike text text' where
  tokens := h
  value := Settings.evaluateValue_congr h
  shown := Settings.evaluate_congr h

namespace Scanner

variable {c : Char} {u v : List Char}

/-! ## Characters that are no part of a literal -/

theorem step_flush (h : ¬IsLiteralChar c) (s : Scanner) (next : Option Char) :
    s.flush.step c next = s.step c next := by
  rcases s.step_cases c next with ⟨hc, hs⟩ | ⟨op, hc, hs⟩ | ⟨rfl, hs⟩ | ⟨rfl, hs⟩ | ⟨hc, -⟩
  · rw [hs, step_whiteSpace hc, flush_flush]
  · rw [hs, step_operator hc, flush_flush]
  · rw [hs, step_openParen, flush_flush]
  · rw [hs, step_closeParen, flush_flush]
  · exact absurd hc h

theorem pending_step (h : ¬IsLiteralChar c) (s : Scanner) (next : Option Char) :
    (s.step c next).pending = [] := by
  rcases s.step_cases c next with ⟨-, hs⟩ | ⟨op, -, hs⟩ | ⟨-, hs⟩ | ⟨-, hs⟩ | ⟨hc, -⟩
  · rw [hs, flush_pending]
  · rw [hs, emitOperator_pending, flush_pending]
  · rw [hs, emitOpen_pending, flush_pending]
  · rw [hs, emitClose_pending, flush_pending]
  · exact absurd hc h

/-! ## Blanks -/

/-- A text that does not go on with a literal ends the one before it. -/
theorem run_flush (h : ∀ b ∈ v.head?, ¬IsLiteralChar b) (s : Scanner) :
    s.flush.run v = s.run v := by
  cases v with
  | nil => exact s.flush_flush
  | cons b v => rw [run, run, step_flush (h b rfl)]

/-- A text that does not end with a literal leaves none to be ended. -/
theorem flush_feed_of_last (h : ∀ a ∈ u.getLast?, ¬IsLiteralChar a) (after : Option Char) :
    (Scanner.initial.feed after u).flush = Scanner.initial.feed after u := by
  rcases List.eq_nil_or_concat' u with rfl | ⟨u, a, rfl⟩
  · rfl
  · rw [feed_append, flush_of_pending (pending_step (h a (by simp)) _ _)]

/-- A text that does not end with a group does not depend on what follows it. -/
theorem feed_of_last (h : ∀ a ∈ u.getLast?, a ≠ ')') (s : Scanner) (after after' : Option Char) :
    s.feed after u = s.feed after' u := by
  rcases List.eq_nil_or_concat' u with rfl | ⟨u, a, rfl⟩
  · rfl
  · rw [feed_append, feed_append, step_next (h a (by simp))]

theorem run_of_apart (h : ∀ a ∈ u.getLast?, ∀ b ∈ v.head?, ¬Touches a b) :
    Scanner.initial.run (u ++ v) = (Scanner.initial.feed none u).flush.run v := by
  rw [run_append]
  have hnone : v.head?.any Char.isDigit = false →
      Scanner.initial.feed v.head? u = Scanner.initial.feed none u :=
    fun hdigit => feed_congr Scanner.initial u (hdigit.trans Option.any_none.symm)
  by_cases hliteral : ∃ b ∈ v.head?, IsLiteralChar b
  · obtain ⟨b, hb, hliteral⟩ := hliteral
    have hlast : ∀ a ∈ u.getLast?, ¬IsLiteralChar a := fun a ha ha' =>
      h a ha b hb (Or.inl ⟨ha', hliteral⟩)
    rw [flush_feed_of_last hlast]
    cases hdigit : b.isDigit with
    | true =>
      have hopen : ∀ a ∈ u.getLast?, a ≠ ')' := fun a ha hclose =>
        h a ha b hb (Or.inr ⟨hclose, hdigit⟩)
      rw [feed_of_last hopen Scanner.initial v.head? none]
    | false => rw [hnone (by rw [Option.mem_def.mp hb]; exact hdigit)]
  · have hdigit : v.head?.any Char.isDigit = false := by
      cases hhead : v.head? with
      | none => rfl
      | some b =>
        refine Bool.eq_false_iff.mpr fun hdigit => hliteral ⟨b, hhead, ?_⟩
        exact isLiteralChar_of_isOperandChar (isOperandChar_of_isDigit hdigit)
    rw [run_flush fun b hb hb' => hliteral ⟨b, hb, hb'⟩, hnone hdigit]

end Scanner

theorem Token.scan_blank {u v : List Char} {w : Char} (hw : Text.isWhiteSpace w = true)
    (h : ∀ a ∈ u.getLast?, ∀ b ∈ v.head?, ¬Touches a b) : scan (u ++ w :: v) = scan (u ++ v) := by
  have hblank : (some w).any Char.isDigit = (none : Option Char).any Char.isDigit :=
    not_isDigit_of_isWhiteSpace hw
  rw [scan, Scanner.run_append_cons, Scanner.step_whiteSpace hw,
    Scanner.feed_congr Scanner.initial u hblank, ← Scanner.run_of_apart h, scan]

/-! ## Spellings -/

theorem Token.scan_spelling (u v : List Char) (c : Char) :
    scan (u ++ c :: v) = scan (u ++ Operator.spell c :: v) := by
  rw [← scan_map_spell (u ++ c :: v), ← scan_map_spell (u ++ Operator.spell c :: v)]
  simp [Operator.spell_spell]

/-- Texts that differ only by white space between characters that do not touch and by how their
operators are spelled have the same tokens, and what is evaluated of them is the same. -/
theorem edited_texts_are_alike {text text' : List Char} (h : Relation.EqvGen Edit text text') :
    Alike text text' := by
  refine Alike.of_tokens ?_
  induction h with
  | rel text text' hedit =>
    cases hedit with
    | blank hw hapart => exact Token.scan_blank hw hapart
    | spelling => exact Token.scan_spelling _ _ _
  | refl text => rfl
  | symm text text' _ ih => exact ih.symm
  | trans text text' text'' _ _ ih ih' => exact ih.trans ih'

/-- A blank between a group and a point may go, since a point does not multiply the group. -/
theorem edited_texts_are_alike_after_group :
    Relation.EqvGen Edit ['(', '2', ')', '\u00a0', '.', '5', ' ', '×', '3']
        ['(', '2', ')', '.', '5', 'X', '3'] ∧
      Alike ['(', '2', ')', '\u00a0', '.', '5', ' ', '×', '3']
        ['(', '2', ')', '.', '5', 'X', '3'] := by
  have hpoint : Edit (['(', '2', ')'] ++ '\u00a0' :: ['.', '5', ' ', '×', '3'])
      (['(', '2', ')'] ++ ['.', '5', ' ', '×', '3']) :=
    .blank (by decide) (by rintro _ ⟨⟩ _ ⟨⟩; decide)
  have htimes : Edit (['(', '2', ')', '.', '5'] ++ ' ' :: ['×', '3'])
      (['(', '2', ')', '.', '5'] ++ ['×', '3']) :=
    .blank (by decide) (by rintro _ ⟨⟩ _ ⟨⟩; decide)
  have hspelling : Edit (['(', '2', ')', '.', '5'] ++ '×' :: ['3'])
      (['(', '2', ')', '.', '5'] ++ Operator.spell '×' :: ['3']) := .spelling
  have h := ((Relation.EqvGen.rel _ _ hpoint).trans _ _ _ (.rel _ _ htimes)).trans _ _ _
    (.rel _ _ hspelling)
  exact ⟨h, edited_texts_are_alike h⟩

end PocketCalculator
