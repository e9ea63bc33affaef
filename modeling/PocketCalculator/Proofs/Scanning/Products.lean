import PocketCalculator.Proofs.Scanning.Range
import PocketCalculator.Proofs.Scanning.Spelling

/-!
# Products without a sign

The scanner adds a multiplication where a group follows a value and where a digit directly follows
a group. A text in which these are written out has the same tokens, and its characters are those of
the tokens: apart from white space nothing is lost and nothing else is added.
-/
namespace PocketCalculator

namespace Products

/-- Whether the character can be the last one of a value. -/
def isValueEnd (c : Char) : Bool := c == ')' || decide (IsLiteralChar c)

/-- The last character other than white space when one more is read. -/
def lastAfter (last : Option Char) (c : Char) : Option Char :=
  if Text.isWhiteSpace c then last else some c

/-- A character with the multiplication signs that belong to it: one before an opening parenthesis
after a value, and one between a closing parenthesis and a digit directly after it. -/
def withSigns (last : Option Char) (c : Char) (next : Option Char) : List Char :=
  (if c = '(' && last.any isValueEnd then ['X'] else []) ++
    c :: (if c = ')' && next.any Char.isDigit then ['X'] else [])

/-- The text with all its products written out, where `last` is the last character before it other
than white space. -/
def writeOut (last : Option Char) : List Char → List Char
  | [] => []
  | c :: rest => withSigns last c rest.head? ++ writeOut (lastAfter last c) rest

/-- The text without white space, each operator with the character it is shown with. -/
def plain (text : List Char) : List Char :=
  (text.filter fun c => !Text.isWhiteSpace c).map Operator.spell

variable {last next : Option Char} {c : Char}

theorem plain_append (u w : List Char) : plain (u ++ w) = plain u ++ plain w := by
  rw [plain, List.filter_append, List.map_append]
  rfl

theorem withSigns_of_other (hopen : c ≠ '(') (hclose : c ≠ ')') (last next : Option Char) :
    withSigns last c next = [c] := by
  simp [withSigns, hopen, hclose]

theorem plain_whiteSpace (h : Text.isWhiteSpace c = true) : plain [c] = [] := by
  simp [plain, h]

theorem plain_operator {op : Operator} (h : Operator.ofGlyph? c = some op) :
    plain [c] = [op.glyph] := by
  simp [plain, not_isWhiteSpace_of_ofGlyph? h, Operator.spell_of_operator h]

theorem plain_literalChar (h : IsLiteralChar c) : plain [c] = [c] := by
  simp [plain, h.not_whiteSpace, Operator.spell_of_other h.not_glyph]

theorem isValueEnd_operator {op : Operator} (h : Operator.ofGlyph? c = some op) :
    isValueEnd c = false := by
  have hclose : c ≠ ')' := by
    rintro rfl
    cases h
  have hliteral : ¬IsLiteralChar c := by
    intro hc
    rw [hc.not_glyph] at h
    cases h
  simp [isValueEnd, hclose, hliteral]

theorem isValueEnd_literalChar (h : IsLiteralChar c) : isValueEnd c = true := by
  simp [isValueEnd, h]

/-- The signs that are written do not change whether a digit comes next. -/
theorem isDigit_head?_writeOut (last : Option Char) (text : List Char) :
    (writeOut last text).head?.any Char.isDigit = text.head?.any Char.isDigit := by
  cases text with
  | nil => rfl
  | cons c rest =>
    rw [writeOut, withSigns]
    split
    · rename_i hopen
      simp only [Bool.and_eq_true, decide_eq_true_eq] at hopen
      rw [hopen.1]
      rfl
    · rfl

end Products

open Products Token

namespace Scanner

variable {s : Scanner} {last next : Option Char} {c : Char}

theorem endsValue_emitOperator (s : Scanner) (op : Operator) :
    (s.emitOperator op).emitted.head?.any Token.endsValue = false := by
  unfold emitOperator
  split <;> rfl

theorem endsValue_emitOpen (s : Scanner) :
    s.emitOpen.emitted.head?.any Token.endsValue = false := by
  unfold emitOpen
  split <;> rfl

/-! ## The last character -/

/-- The scanner knows whether a value ends with the last character. It may have added a
multiplication already, but only if a digit comes next. -/
def Knows (s : Scanner) (last next : Option Char) : Prop :=
  next.any Char.isDigit = true ∨
    s.flush.emitted.head?.any Token.endsValue = last.any isValueEnd

theorem Knows.endsValue_eq (h : s.Knows last (some c)) (hc : c.isDigit = false) :
    s.flush.emitted.head?.any Token.endsValue = last.any isValueEnd := by
  rcases h with hdigit | h
  · rw [Option.any_some, hc] at hdigit
    cases hdigit
  · exact h

theorem Knows.step (h : s.Knows last (some c)) (next : Option Char) :
    (s.step c next).Knows (lastAfter last c) next := by
  have hflush := s.flush_pending
  rcases s.step_cases c next with ⟨hc, hs⟩ | ⟨op, hc, hs⟩ | ⟨rfl, hs⟩ | ⟨rfl, hs⟩ | ⟨hc, hs⟩ <;>
    rw [hs]
  · refine Or.inr ?_
    rw [flush_of_pending hflush, lastAfter, if_pos hc]
    exact h.endsValue_eq (not_isDigit_of_isWhiteSpace hc)
  · refine Or.inr ?_
    rw [flush_of_pending ((emitOperator_pending _ _).trans hflush), endsValue_emitOperator,
      lastAfter, not_isWhiteSpace_of_ofGlyph? hc]
    exact (isValueEnd_operator hc).symm
  · refine Or.inr ?_
    rw [flush_of_pending ((emitOpen_pending _).trans hflush), endsValue_emitOpen]
    rfl
  · cases hnext : next.any Char.isDigit with
    | true => exact Or.inl hnext
    | false =>
      refine Or.inr ?_
      rw [flush_of_pending ((emitClose_pending _ _).trans hflush), emitClose, hnext]
      rfl
  · refine Or.inr ?_
    rw [lastAfter, hc.not_whiteSpace]
    exact (isValueEnd_literalChar hc).symm

/-! ## Products written out -/

theorem step_multiply (s : Scanner) (next : Option Char) :
    s.step 'X' next = s.flush.emit (.operator .multiply) :=
  step_operator (rfl : Operator.ofGlyph? 'X' = some .multiply) s next

/-- No multiplication is added where one is written. -/
theorem step_multiply_open (h : s.flush.emitted.head?.any Token.endsValue = true)
    (after next : Option Char) : (s.step 'X' after).step '(' next = s.step '(' next := by
  have hemitted : (s.flush.emit (.operator .multiply)).flush =
      s.flush.emit (.operator .multiply) := flush_of_pending s.flush_pending
  have hopen : (s.flush.emit (.operator .multiply)).emitOpen =
      (s.flush.emit (.operator .multiply)).emit .openParen := if_neg Bool.false_ne_true
  rw [step_multiply, step_openParen, step_openParen, hemitted, hopen, emitOpen, if_pos h]

theorem step_close_multiply (h : next.any Char.isDigit = true) (after : Option Char) :
    (s.step ')' (some 'X')).step 'X' after = s.step ')' next := by
  have hclose : s.flush.emitClose (some 'X') = s.flush.emit .closeParen := rfl
  have hemitted : (s.flush.emit .closeParen).flush = s.flush.emit .closeParen :=
    flush_of_pending s.flush_pending
  rw [step_multiply, step_closeParen, step_closeParen, hclose, hemitted, emitClose, if_pos h]

/-- A character with its signs leads where the character alone does. -/
theorem run_withSigns (h : s.Knows last (some c)) {rest : List Char}
    (hnext : rest.head?.any Char.isDigit = next.any Char.isDigit) :
    s.run (withSigns last c next ++ rest) = (s.step c next).run rest := by
  have hplain : withSigns last c next = [c] →
      s.run (withSigns last c next ++ rest) = (s.step c next).run rest := fun hwith => by
    rw [hwith, List.singleton_append, run, step_congr s c hnext]
  by_cases hopen : c = '('
  · subst hopen
    cases hlast : last.any isValueEnd with
    | true =>
      have hwith : withSigns last '(' next = ['X', '('] := by simp [withSigns, hlast]
      rw [hwith, List.cons_append, List.singleton_append, run, run,
        step_multiply_open ((h.endsValue_eq rfl).trans hlast), step_congr s '(' hnext]
    | false => exact hplain (by simp [withSigns, hlast])
  · by_cases hclose : c = ')'
    · subst hclose
      cases hdigit : next.any Char.isDigit with
      | true =>
        have hwith : withSigns last ')' next = [')', 'X'] := by simp [withSigns, hdigit]
        rw [hwith, List.cons_append, List.singleton_append, run, run, List.head?_cons,
          step_close_multiply hdigit]
      | false => exact hplain (by simp [withSigns, hdigit])
    · exact hplain (withSigns_of_other hopen hclose last next)

theorem run_writeOut {text : List Char} (h : s.Knows last text.head?) :
    s.run (writeOut last text) = s.run text := by
  induction text generalizing s last with
  | nil => rfl
  | cons c rest ih =>
    rw [writeOut, run_withSigns h (isDigit_head?_writeOut _ rest), ih (h.step rest.head?), run]

/-! ## Characters of tokens -/

/-- The characters of the tokens found so far and of the literal being read. -/
def written (s : Scanner) : List Char := s.emitted.reverse.flatMap typed ++ s.pending.reverse

theorem written_emit (h : s.pending = []) (token : Token) :
    (s.emit token).written = s.written ++ token.typed := by
  simp [written, emit, h]

theorem written_flush (s : Scanner) : s.flush.written = s.written := by
  unfold flush
  split
  · rfl
  · simp [written, typed, Token.text]

theorem written_emitOperator (h : s.pending = []) (op : Operator) :
    (s.emitOperator op).written = s.written ++ [op.glyph] := by
  unfold emitOperator
  split
  · rename_i hnegation
    simp only [Bool.and_eq_true, decide_eq_true_eq] at hnegation
    rw [written_emit h, hnegation.1]
    rfl
  · rw [written_emit h]
    rfl

theorem written_emitOpen (h : s.pending = []) : s.emitOpen.written =
    s.written ++ if s.emitted.head?.any Token.endsValue then ['X', '('] else ['('] := by
  unfold emitOpen
  split
  · have hemitted : ∀ token, (s.emit token).pending = [] := fun _ => h
    rw [written_emit (hemitted _), written_emit h, List.append_assoc]
    rfl
  · rw [written_emit h]
    rfl

theorem written_emitClose (h : s.pending = []) (next : Option Char) :
    (s.emitClose next).written =
      s.written ++ if next.any Char.isDigit then [')', 'X'] else [')'] := by
  unfold emitClose
  split
  · have hemitted : ∀ token, (s.emit token).pending = [] := fun _ => h
    rw [written_emit (hemitted _), written_emit h, List.append_assoc]
    rfl
  · rw [written_emit h]
    rfl

theorem written_step (h : s.Knows last (some c)) (next : Option Char) :
    (s.step c next).written = s.written ++ plain (withSigns last c next) := by
  have hflush := s.flush_pending
  rcases s.step_cases c next with ⟨hc, hs⟩ | ⟨op, hc, hs⟩ | ⟨rfl, hs⟩ | ⟨rfl, hs⟩ | ⟨hc, hs⟩ <;>
    rw [hs]
  · rw [withSigns_of_other, plain_whiteSpace hc, List.append_nil, written_flush] <;> rintro rfl <;>
      cases hc
  · rw [withSigns_of_other, plain_operator hc, written_emitOperator hflush, written_flush] <;>
      rintro rfl <;> cases hc
  · rw [written_emitOpen hflush, h.endsValue_eq rfl, written_flush]
    cases hlast : last.any isValueEnd <;> simp [withSigns, hlast] <;> rfl
  · rw [written_emitClose hflush, written_flush]
    cases hdigit : next.any Char.isDigit <;> simp [withSigns, hdigit] <;> rfl
  · rw [withSigns_of_other hc.ne_open hc.ne_close, plain_literalChar hc]
    simp [written]

theorem written_run {text : List Char} (h : s.Knows last text.head?) :
    (s.run text).written = s.written ++ plain (writeOut last text) := by
  induction text generalizing s last with
  | nil => rw [run, written_flush]; exact (List.append_nil _).symm
  | cons c rest ih =>
    rw [run, ih (h.step rest.head?), written_step h, writeOut, plain_append, List.append_assoc]

end Scanner

/-- A text with all its products written out has the same tokens. The characters of these are the
ones of that text, apart from white space and from how operators are spelled. -/
theorem Token.characters_are_kept (text : List Char) :
    let explicit := writeOut none text
    scan explicit = scan text ∧ (scan text).flatMap typed = plain explicit := by
  intro explicit
  have h : Scanner.initial.Knows none text.head? := Or.inr rfl
  constructor
  · rw [scan, Scanner.run_writeOut h, scan]
  · have hwritten := Scanner.written_run h
    rw [Scanner.run_initial] at hwritten
    simpa [Scanner.written, Scanner.initial] using hwritten

example : writeOut none "2 (3)4-(5) (6) 7".toList = "2 X(3)X4-(5) X(6) 7".toList := by
  decide +kernel

end PocketCalculator
