import PocketCalculator.Proofs.Grammar
import PocketCalculator.Proofs.Keypad.Typable
import PocketCalculator.Proofs.Scanning.Steps

/-!
# The parentheses of a text

The scanner keeps every parenthesis and adds none, so a text and its tokens agree on balance
and nesting. The token of a closing parenthesis comes right after the tokens of the text
before it.
-/
namespace PocketCalculator

open Brackets Keypad

namespace Scanner

theorem marks_emit_other (s : Scanner) {token : Token} (ho : token ≠ .openParen)
    (hc : token ≠ .closeParen) :
    Token.brackets.marks (s.emit token).emitted.reverse =
      Token.brackets.marks s.emitted.reverse := by
  rw [emit, List.reverse_cons, marks_append, marks_other (b := Token.brackets) ho hc,
    List.append_nil]

theorem marks_flush (s : Scanner) :
    Token.brackets.marks s.flush.emitted.reverse = Token.brackets.marks s.emitted.reverse := by
  unfold flush
  split
  · rfl
  · exact s.marks_emit_other (by simp) (by simp)

theorem marks_emitOperator (s : Scanner) (op : Operator) :
    Token.brackets.marks (s.emitOperator op).emitted.reverse =
      Token.brackets.marks s.emitted.reverse := by
  unfold emitOperator
  split <;> exact s.marks_emit_other (by simp) (by simp)

theorem marks_emitOpen (s : Scanner) :
    Token.brackets.marks s.emitOpen.emitted.reverse =
      Token.brackets.marks s.emitted.reverse ++ [true] := by
  have hopen : ∀ s : Scanner, Token.brackets.marks (s.emit .openParen).emitted.reverse =
      Token.brackets.marks s.emitted.reverse ++ [true] := fun s => by
    rw [emit, List.reverse_cons, marks_append]
    rfl
  unfold emitOpen
  split
  · rw [hopen, s.marks_emit_other (by simp) (by simp)]
  · exact hopen s

theorem marks_emitClose (s : Scanner) (next : Option Char) :
    Token.brackets.marks (s.emitClose next).emitted.reverse =
      Token.brackets.marks s.emitted.reverse ++ [false] := by
  have hclose : Token.brackets.marks (s.emit .closeParen).emitted.reverse =
      Token.brackets.marks s.emitted.reverse ++ [false] := by
    rw [emit, List.reverse_cons, marks_append]
    rfl
  unfold emitClose
  split
  · rw [marks_emit_other _ (by simp) (by simp), hclose]
  · exact hclose

theorem marks_step (s : Scanner) (c : Char) (next : Option Char) :
    Token.brackets.marks (s.step c next).emitted.reverse =
      Token.brackets.marks s.emitted.reverse ++ brackets.marks [c] := by
  have hnone : c ≠ '(' → c ≠ ')' → brackets.marks [c] = [] :=
    fun ho hc => marks_other (b := brackets) ho hc
  rcases s.step_cases c next with ⟨hc, h⟩ | ⟨op, hop, h⟩ | ⟨rfl, h⟩ | ⟨rfl, h⟩ | ⟨hc, h⟩ <;> rw [h]
  · rw [marks_flush, hnone, List.append_nil] <;> rintro rfl <;> cases hc
  · rw [marks_emitOperator, marks_flush, hnone, List.append_nil] <;> rintro rfl <;> cases hop
  · rw [marks_emitOpen, marks_flush]
    rfl
  · rw [marks_emitClose, marks_flush]
    rfl
  · rw [hnone hc.ne_open hc.ne_close, List.append_nil]

theorem marks_run (s : Scanner) (text : List Char) :
    Token.brackets.marks (s.run text).emitted.reverse =
      Token.brackets.marks s.emitted.reverse ++ brackets.marks text := by
  induction text generalizing s with
  | nil =>
    rw [run, marks_flush]
    exact (List.append_nil _).symm
  | cons c rest ih =>
    rw [run, ih, marks_step, List.append_assoc, ← marks_append, List.singleton_append]

end Scanner

theorem marks_scan (text : List Char) :
    Token.brackets.marks (Token.scan text) = brackets.marks text :=
  Scanner.initial.marks_run text

theorem balanced_scan_iff (text : List Char) :
    Token.brackets.Balanced (Token.scan text) ↔ brackets.Balanced text :=
  closesAll_iff_of_marks (marks_scan text)

/-- The token of a closing parenthesis comes right after those of the text before it. -/
theorem scan_append_close (before after : List Char) :
    ∃ later, Token.scan (before ++ ')' :: after) = Token.scan before ++ .closeParen :: later := by
  have hnext : (some ')').any Char.isDigit = none.any Char.isDigit := rfl
  have hbefore : (Scanner.initial.feed (some ')') before).flush = Scanner.initial.run before := by
    rw [Scanner.run_eq_feed, Scanner.feed_congr _ before hnext]
  have hclose : Token.closeParen :: (Scanner.initial.run before).emitted <:+
      ((Scanner.initial.run before).emitClose after.head?).emitted := by
    unfold Scanner.emitClose
    split
    · exact List.suffix_cons _ _
    · exact List.suffix_refl _
  have hrun : Token.closeParen :: (Scanner.initial.run before).emitted <:+
      (Scanner.initial.run (before ++ ')' :: after)).emitted := by
    rw [Scanner.run_append_cons]
    change _ <:+ (((Scanner.initial.feed (some ')') before).flush.emitClose _).run after).emitted
    rw [hbefore]
    exact hclose.trans (Scanner.emitted_run _ after)
  obtain ⟨later, hlater⟩ := hrun
  refine ⟨later.reverse, ?_⟩
  rw [Token.scan, ← hlater]
  simp [Token.scan]

end PocketCalculator
