import PocketCalculator.Proofs.Brackets
import PocketCalculator.Proofs.Scanning.Steps

/-!
# Which token lists are scanned

The scanner decides on each token by the one before it, so the lists it can give are those in
which every token may follow the one before. Each of them is given back for its own tokens
written with a blank between them.
-/
namespace PocketCalculator

namespace Token

/-- Whether the scanner can give a token after the last one, if there is one. -/
def Follows (last : Option Token) : Token → Prop
  | literal text => text ≠ [] ∧ ∀ c ∈ text, IsLiteralChar c
  | operator op => op = .subtract → last.any isLiteral = true
  | negation => last.any isLiteral = false
  | openParen => last.any endsValue = false
  | closeParen => True

/-- Every literal is a run of characters without other meaning, a subtraction directly follows
a literal and a negation does not, and no group directly follows a literal or another group. -/
def Scannable (tokens : List Token) : Prop :=
  ∀ before token after, tokens = before ++ token :: after → token.Follows before.getLast?

/-- How a token is typed. A negation is typed as a minus sign. -/
def typed : Token → List Char
  | negation => [Operator.subtract.glyph]
  | token => token.text

/-- The tokens typed with a blank between them. -/
def spaced (tokens : List Token) : List Char := [' '].intercalate (tokens.map typed)

theorem scannable_nil : Scannable [] := by
  intro before token after h
  simp at h

theorem scannable_append {tokens : List Token} {token : Token} :
    Scannable (tokens ++ [token]) ↔ Scannable tokens ∧ token.Follows tokens.getLast? := by
  constructor
  · intro h
    refine ⟨fun before token' after hsplit => ?_, h tokens token [] rfl⟩
    exact h before token' (after ++ [token]) (by simp [hsplit])
  · rintro ⟨h, hlast⟩ before token' after hsplit
    rcases split_append_singleton hsplit with ⟨rfl, rfl, rfl⟩ | ⟨after', rfl, rfl⟩
    · exact hlast
    · exact h before token' after' rfl

end Token

namespace Scanner

open Token

/-! ## What is scanned is scannable -/

/-- What the scanner preserves. -/
structure Orderly (s : Scanner) : Prop where
  emitted : Scannable s.emitted.reverse
  pending : ∀ c ∈ s.pending, IsLiteralChar c

variable {s : Scanner}

theorem Orderly.initial : Scanner.initial.Orderly := ⟨scannable_nil, by simp [Scanner.initial]⟩

theorem Orderly.emit (h : s.Orderly) {token : Token} (hf : token.Follows s.emitted.head?) :
    (s.emit token).Orderly := by
  refine ⟨?_, h.pending⟩
  rw [Scanner.emit, List.reverse_cons, scannable_append, List.getLast?_reverse]
  exact ⟨h.emitted, hf⟩

theorem Orderly.flush (h : s.Orderly) : s.flush.Orderly := by
  unfold Scanner.flush
  split
  · exact h
  · rename_i hpending
    have hne : s.pending.reverse ≠ [] := by simpa using hpending
    have hliteral : (Token.literal s.pending.reverse).Follows s.emitted.head? :=
      ⟨hne, fun c hc => h.pending c (List.mem_reverse.mp hc)⟩
    exact ⟨(h.emit hliteral).emitted, by simp⟩

theorem Orderly.emitOperator (h : s.Orderly) (op : Operator) : (s.emitOperator op).Orderly := by
  unfold Scanner.emitOperator
  split
  · rename_i hnegation
    simp only [Bool.and_eq_true, Bool.not_eq_true'] at hnegation
    exact h.emit hnegation.2
  · rename_i hoperator
    refine h.emit fun hop => ?_
    simpa [hop] using hoperator

theorem Orderly.emitOpen (h : s.Orderly) : s.emitOpen.Orderly := by
  unfold Scanner.emitOpen
  split
  · have hmultiply : (Token.operator .multiply).Follows s.emitted.head? := nofun
    exact (h.emit hmultiply).emit rfl
  · rename_i hvalue
    exact h.emit (Bool.eq_false_iff.mpr hvalue)

theorem Orderly.emitClose (h : s.Orderly) (next : Option Char) : (s.emitClose next).Orderly := by
  have hclose : (s.emit .closeParen).Orderly := h.emit trivial
  unfold Scanner.emitClose
  split
  · exact hclose.emit nofun
  · exact hclose

theorem Orderly.step (h : s.Orderly) (c : Char) (next : Option Char) :
    (s.step c next).Orderly := by
  rcases s.step_cases c next with ⟨_, hs⟩ | ⟨op, _, hs⟩ | ⟨_, hs⟩ | ⟨_, hs⟩ | ⟨hc, hs⟩ <;> rw [hs]
  · exact h.flush
  · exact h.flush.emitOperator op
  · exact h.flush.emitOpen
  · exact h.flush.emitClose next
  · exact ⟨h.emitted, List.forall_mem_cons.mpr ⟨hc, h.pending⟩⟩

theorem Orderly.run (h : s.Orderly) (text : List Char) : (s.run text).Orderly := by
  induction text generalizing s with
  | nil => exact h.flush
  | cons c rest ih => exact ih (h.step c rest.head?)

/-! ## What is scannable is scanned -/

/-- A typed token is read as itself where it may stand, when a blank or nothing comes next. -/
theorem flush_feed_typed {token : Token} {after : Option Char} (hpending : s.pending = [])
    (hf : token.Follows s.emitted.head?) (hafter : after.any Char.isDigit = false) :
    (s.feed after token.typed).flush = s.emit token := by
  have hflush := flush_of_pending hpending
  have hsingle : ∀ c, s.feed after [c] = s.step c after := fun c => by rw [feed, feed]; rfl
  have hemit : ∀ token, (s.emit token).flush = s.emit token :=
    fun token => flush_of_pending hpending
  -- What a token may follow is what the scanner asks for before it emits that token.
  cases token with
  | literal word =>
    obtain ⟨hne, hchars⟩ := hf
    rw [typed, Token.text, feed_literal hchars, hpending, List.append_nil, flush,
      if_neg (by simpa), List.reverse_reverse, emit, hpending]
    simp
  | operator op =>
    have hspace : Text.isWhiteSpace op.glyph = false := by cases op <;> decide
    have hoperator : s.emitOperator op = s.emit (.operator op) := by
      refine if_neg ?_
      by_cases hop : op = .subtract
      · simp [hf hop]
      · simp [hop]
    rw [typed, Token.text, hsingle, step, hspace, Operator.ofGlyph?_glyph, hflush]
    simp only [Bool.false_eq_true, ↓reduceIte, hoperator, hemit]
    simp
  | negation =>
    have hnegation : s.emitOperator .subtract = s.emit .negation := by
      refine if_pos ?_
      rw [hf]
      rfl
    rw [typed, hsingle]
    change (s.flush.emitOperator .subtract).flush = s.emit .negation
    rw [hflush, hnegation, hemit]
  | openParen =>
    have hopen : s.emitOpen = s.emit .openParen := if_neg (Bool.eq_false_iff.mp hf)
    rw [typed, Token.text, hsingle]
    · change s.flush.emitOpen.flush = s.emit .openParen
      rw [hflush, hopen, hemit]
    · simp
  | closeParen =>
    have hclose : s.emitClose after = s.emit .closeParen := if_neg (Bool.eq_false_iff.mp hafter)
    rw [typed, Token.text, hsingle]
    · change (s.flush.emitClose after).flush = s.emit .closeParen
      rw [hflush, hclose, hemit]
    · simp

/-- Tokens that may follow those already emitted are read one after the other. -/
theorem run_spaced {tokens : List Token} (hpending : s.pending = [])
    (h : Scannable (s.emitted.reverse ++ tokens)) :
    s.run (spaced tokens) = { s with emitted := tokens.reverse ++ s.emitted } := by
  induction tokens generalizing s with
  | nil => exact flush_of_pending hpending
  | cons token rest ih =>
    have hf : token.Follows s.emitted.head? := by
      rw [← List.getLast?_reverse]
      exact h s.emitted.reverse token rest rfl
    have hpending' : (s.emit token).pending = [] := hpending
    have hrest : Scannable ((s.emit token).emitted.reverse ++ rest) := by
      simpa [emit] using h
    cases rest with
    | nil =>
      rw [spaced, List.map_singleton, List.intercalate_singleton, run_eq_feed,
        flush_feed_typed hpending hf rfl]
      rfl
    | cons next rest =>
      have hspaced : spaced (token :: next :: rest) =
          token.typed ++ ' ' :: spaced (next :: rest) := by
        simp [spaced, List.intercalate]
      rw [hspaced, run_append_cons, step_whiteSpace (by decide),
        flush_feed_typed hpending hf (by decide), ih hpending' hrest]
      simp [emit]

end Scanner

namespace Token

theorem scannable_scan (text : List Char) : Scannable (scan text) :=
  (Scanner.Orderly.initial.run text).emitted

theorem scan_spaced {tokens : List Token} (h : Scannable tokens) :
    scan (spaced tokens) = tokens := by
  have hrun : Scanner.initial.run (spaced tokens) =
      { Scanner.initial with emitted := tokens.reverse ++ [] } := Scanner.run_spaced rfl h
  rw [scan, hrun, List.append_nil, List.reverse_reverse]

/-- The token lists that texts have are the scannable ones, and these are the lists that are
given back for their own tokens with a blank between them. -/
theorem scan_range (tokens : List Token) :
    ((∃ text, scan text = tokens) ↔ Scannable tokens) ∧
      (scan (spaced tokens) = tokens ↔ Scannable tokens) := by
  have hscan : ∀ text, scan text = tokens → Scannable tokens := by
    rintro text rfl
    exact scannable_scan text
  exact ⟨⟨fun ⟨text, h⟩ => hscan text h, fun h => ⟨_, scan_spaced h⟩⟩, hscan _, scan_spaced⟩

example : spaced (scan "2(-3)4".toList) = "2 X ( - 3 ) X 4".toList := by decide +kernel

end Token

end PocketCalculator
