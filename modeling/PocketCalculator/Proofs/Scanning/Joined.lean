import PocketCalculator.Proofs.Scanning.Steps

/-!
# Joined texts

Of what has been scanned only the last token matters for what comes next. Where no value ends,
a text is scanned as it is on its own, so the tokens of texts joined by an operator, and of a
text in parentheses, are put together from the tokens of the parts.
-/
namespace PocketCalculator

/-! ## Operator characters -/

theorem not_isWhiteSpace_of_ofGlyph? {c : Char} {op : Operator}
    (h : Operator.ofGlyph? c = some op) : Text.isWhiteSpace c = false := by
  unfold Operator.ofGlyph? at h
  split at h <;> first | decide | cases h

theorem not_isDigit_of_ofGlyph? {c : Char} {op : Operator} (h : Operator.ofGlyph? c = some op) :
    c.isDigit = false := by
  cases hc : c.isDigit with
  | false => rfl
  | true =>
    rw [ofGlyph?_of_isOperandChar (isOperandChar_of_isDigit hc)] at h
    cases h

namespace Scanner

theorem step_operator {c : Char} {op : Operator} (h : Operator.ofGlyph? c = some op) (s : Scanner)
    (next : Option Char) : s.step c next = s.flush.emitOperator op := by
  rw [step, not_isWhiteSpace_of_ofGlyph? h, h]
  rfl

/-! ## Scanning on from tokens -/

/-- The scanner with its tokens on top of others that were found before. -/
def atop (s : Scanner) (before : List Token) : Scanner := ⟨s.emitted ++ before, s.pending⟩

section Atop

variable {before : List Token}

theorem flush_atop (s : Scanner) : (s.atop before).flush = s.flush.atop before := by
  unfold flush atop
  dsimp only
  split <;> rfl

theorem any_head?_atop {p : Token → Bool} (h : before.head?.any p = false) (s : Scanner) :
    (s.atop before).emitted.head?.any p = s.emitted.head?.any p := by
  obtain ⟨emitted, pending⟩ := s
  cases emitted with
  | nil => exact h
  | cons token emitted => rfl

theorem not_isLiteral_of_not_endsValue (h : before.head?.any Token.endsValue = false) :
    before.head?.any Token.isLiteral = false := by
  cases before with
  | nil => rfl
  | cons token before => cases token <;> first | rfl | cases h

/-- Tokens that end no value do not matter for what is done with a character. -/
theorem step_atop (h : before.head?.any Token.endsValue = false) (s : Scanner) (c : Char)
    (next : Option Char) : (s.atop before).step c next = (s.step c next).atop before := by
  have hliteral := any_head?_atop (not_isLiteral_of_not_endsValue h) s.flush
  have hvalue := any_head?_atop h s.flush
  have hoperator : ∀ op, (s.flush.atop before).emitOperator op =
      (s.flush.emitOperator op).atop before := by
    intro op
    unfold emitOperator
    rw [hliteral]
    split <;> rfl
  have hopen : (s.flush.atop before).emitOpen = s.flush.emitOpen.atop before := by
    unfold emitOpen
    rw [hvalue]
    split <;> rfl
  have hclose : (s.flush.atop before).emitClose next = (s.flush.emitClose next).atop before := by
    unfold emitClose
    split <;> rfl
  unfold step
  rw [flush_atop]
  split
  · rfl
  · split
    · exact hoperator _
    · split
      · exact hopen
      · split
        · exact hclose
        · rfl

theorem run_atop (h : before.head?.any Token.endsValue = false) (s : Scanner)
    (text : List Char) : (s.atop before).run text = (s.run text).atop before := by
  induction text generalizing s with
  | nil => exact flush_atop s
  | cons c rest ih => rw [run, run, step_atop h, ih]

end Atop

theorem run_initial (text : List Char) :
    Scanner.initial.run text = ⟨(Token.scan text).reverse, []⟩ := by
  have hpending : (Scanner.initial.run text).pending = [] := by
    rw [run_eq_feed, flush_pending]
  rw [Token.scan, List.reverse_reverse, ← hpending]

/-- Where no value ends, a text is scanned as it is on its own. -/
theorem run_of_not_endsValue {s : Scanner} (hpending : s.pending = [])
    (h : s.emitted.head?.any Token.endsValue = false) (text : List Char) :
    s.run text = ⟨(Token.scan text).reverse ++ s.emitted, []⟩ := by
  have hs : s = Scanner.initial.atop s.emitted := by
    rw [atop, initial, ← hpending]
    rfl
  rw [hs, run_atop h, run_initial]
  rfl

/-- A text that no digit follows is scanned as if nothing followed it. -/
theorem flush_feed_initial {next : Option Char} (h : next.any Char.isDigit = false)
    (text : List Char) :
    (Scanner.initial.feed next text).flush = ⟨(Token.scan text).reverse, []⟩ := by
  have hnext : next.any Char.isDigit = (none : Option Char).any Char.isDigit := h
  rw [feed_congr Scanner.initial text hnext, ← run_eq_feed, run_initial]

end Scanner

/-! ## Tokens of joined texts -/

namespace Token

theorem scan_operand {text : List Char} {value : Binary64} (h : readOperand text = .ok value) :
    scan text = [.literal text] := by
  obtain ⟨hne, hchars⟩ := operandChars_of_readOperand h
  rw [scan, Scanner.initial,
    Scanner.run_literal hne fun c hc => isLiteralChar_of_isOperandChar (hchars c hc)]
  rfl

/-- An operator typed after the tokens: a minus sign that follows no literal is a negation. -/
def joint (before : List Token) (op : Operator) : Token :=
  if op = .subtract && !before.getLast?.any isLiteral then .negation else .operator op

theorem scan_operator {c : Char} {op : Operator} (h : Operator.ofGlyph? c = some op)
    (u w : List Char) : scan (u ++ c :: w) = scan u ++ joint (scan u) op :: scan w := by
  have hdigit : (some c).any Char.isDigit = false := not_isDigit_of_ofGlyph? h
  have hemit : Scanner.emitOperator ⟨(scan u).reverse, []⟩ op =
      ⟨joint (scan u) op :: (scan u).reverse, []⟩ := by
    unfold Scanner.emitOperator joint
    rw [List.head?_reverse]
    split <;> rfl
  have hjoint : (joint (scan u) op :: (scan u).reverse).head?.any endsValue = false := by
    unfold joint
    split <;> rfl
  rw [scan, Scanner.run_append_cons, Scanner.step_operator h, Scanner.flush_feed_initial hdigit,
    hemit, Scanner.run_of_not_endsValue rfl hjoint]
  simp

theorem scan_minus (text : List Char) : scan ('-' :: text) = .negation :: scan text :=
  scan_operator (Operator.ofGlyph?_glyph .subtract) [] text

theorem scan_close (text : List Char) : scan (text ++ [')']) = scan text ++ [.closeParen] := by
  rw [scan, Scanner.run_append_cons, List.head?_nil, Scanner.step_closeParen,
    Scanner.flush_feed_initial rfl]
  simp [Scanner.emitClose, Scanner.emit, Scanner.run, Scanner.flush]

theorem scan_append_group {u : List Char} (h : (scan u).getLast?.any endsValue = true)
    (w : List Char) :
    scan (u ++ '(' :: w) = scan u ++ .operator .multiply :: .openParen :: scan w := by
  have hopen : Scanner.emitOpen ⟨(scan u).reverse, []⟩ =
      ⟨.openParen :: .operator .multiply :: (scan u).reverse, []⟩ := by
    rw [Scanner.emitOpen, List.head?_reverse, if_pos h]
    rfl
  rw [scan, Scanner.run_append_cons, Scanner.step_openParen,
    Scanner.flush_feed_initial (by decide), hopen,
    Scanner.run_of_not_endsValue rfl rfl]
  simp

theorem scan_group (text : List Char) :
    scan ('(' :: (text ++ [')'])) = .openParen :: (scan text ++ [.closeParen]) := by
  have hstep : ∀ next, Scanner.initial.step '(' next = ⟨[.openParen], []⟩ := fun _ => rfl
  rw [scan, Scanner.run, hstep, Scanner.run_of_not_endsValue rfl rfl, scan_close]
  simp

end Token

end PocketCalculator
