import PocketCalculator.Proofs.Reading.Exact
import PocketCalculator.Proofs.Scanning.Joined
import PocketCalculator.Proofs.Scanning.Parentheses

/-!
# Phrases as texts

The grammar for texts: how the text of a phrase is put together from the texts of its parts, and
that such a text is read as its tree within the limits.
-/
namespace PocketCalculator

/-! ## Categories -/

/-- A phrase of a category may stand for one that binds less tightly. -/
theorem Derives.of_level_le {k k' : Category} {w : List Terminal} {t : Expression}
    (h : Derives k w t) (hle : k'.level ≤ k.level) : Derives k' w t := by
  have hunary : Derives .primary w t → Derives .unary w t := .signed 0
  cases k with
  | expression =>
    cases k' with
    | expression => exact h
    | _ => exact absurd hle (by decide)
  | term =>
    cases k' with
    | expression => exact .term h
    | term => exact h
    | _ => exact absurd hle (by decide)
  | unary =>
    cases k' with
    | expression => exact .term (.unary h)
    | term => exact .unary h
    | unary => exact h
    | primary => exact absurd hle (by decide)
  | primary =>
    cases k' with
    | expression => exact .term (.unary (hunary h))
    | term => exact .unary (hunary h)
    | unary => exact hunary h
    | primary => exact h

namespace Operator

/-- The category of an operation, which is that of its left side too. -/
def category : Operator → Category
  | add | subtract => .expression
  | multiply | divide => .term

/-- The category of the right side of an operation. -/
def rightCategory : Operator → Category
  | add | subtract => .term
  | multiply | divide => .unary

theorem joins (op : Operator) : Joins op.category (.operator op) op op.rightCategory := by
  cases op <;> constructor

theorem level_category (op : Operator) : op.category.level = op.precedence :=
  op.joins.precedence.1.symm

theorem level_rightCategory (op : Operator) : op.rightCategory.level = op.precedence + 1 := by
  rw [op.joins.precedence.2, level_category]

end Operator

theorem Token.exists_joins_joint (before : List Token) (op : Operator) :
    ∃ x, (joint before op).terminal = .ok x ∧ Joins op.category x op op.rightCategory := by
  unfold joint
  split
  · rename_i hminus
    simp only [Bool.and_eq_true, decide_eq_true_eq] at hminus
    obtain ⟨rfl, -⟩ := hminus
    exact ⟨.negation, rfl, .negation⟩
  · exact ⟨.operator op, rfl, op.joins⟩

/-! ## Texts -/

/-- The tokens of the text are a phrase of the category, with this tree. -/
def Phrase (category : Category) (text : List Char) (t : Expression) : Prop :=
  ∃ w, Reads (Token.scan text) w ∧ Derives category w t

namespace Phrase

variable {u w text : List Char} {l r t : Expression}

theorem of_level_le {k k' : Category} (h : Phrase k text t) (hle : k'.level ≤ k.level) :
    Phrase k' text t := by
  obtain ⟨terminals, hreads, hd⟩ := h
  exact ⟨terminals, hreads, hd.of_level_le hle⟩

theorem operand {value : Binary64} (h : readOperand text = .ok value) :
    Phrase .primary text (.number value) := by
  have hterminal : (Token.literal text).terminal = .ok (.number value) := by
    rw [Token.terminal, h]
    rfl
  refine ⟨[.number value], ?_, .number value⟩
  rw [Token.scan_operand h]
  exact .cons hterminal .nil

theorem group (h : Phrase .expression text t) : Phrase .primary ('(' :: (text ++ [')'])) t := by
  obtain ⟨terminals, hreads, hd⟩ := h
  refine ⟨_, ?_, .group hd⟩
  rw [Token.scan_group]
  exact .cons rfl (List.rel_append hreads (.cons rfl .nil))

theorem negate (h : Phrase .primary text t) : Phrase .unary ('-' :: text) (.negate t) := by
  obtain ⟨terminals, hreads, hd⟩ := h
  refine ⟨_, ?_, .signed 1 hd⟩
  rw [Token.scan_minus]
  exact .cons rfl hreads

theorem join {c : Char} {op : Operator} (hop : Operator.ofGlyph? c = some op)
    (hl : Phrase op.category u l) (hr : Phrase op.rightCategory w r) :
    Phrase op.category (u ++ c :: w) (.binary op l r) := by
  obtain ⟨us, hus, hdl⟩ := hl
  obtain ⟨ws, hws, hdr⟩ := hr
  obtain ⟨x, hx, hjoins⟩ := Token.exists_joins_joint (Token.scan u) op
  refine ⟨us ++ x :: ws, ?_, .join hdl hjoins hdr⟩
  rw [Token.scan_operator hop]
  exact List.rel_append hus (.cons hx hws)

/-- The text of an expression is read as its tree exactly within the limits. -/
theorem parse_iff (h : Phrase .expression text t) :
    Expression.parse text = .ok t ↔
      t.height ≤ Expression.maxHeight ∧ Keypad.brackets.NestsWithin maxGroups text := by
  rw [← Brackets.nestsWithin_iff_of_marks (marks_scan text)]
  constructor
  · intro hparse
    obtain ⟨-, hnests, hheight⟩ := Expression.denotes_of_ofTokens hparse
    exact ⟨hheight, hnests⟩
  · rintro ⟨hheight, hnests⟩
    rcases Expression.ofTokens_of_denotes h with hok | ⟨limit, -, ⟨-, hlimit⟩ | ⟨-, hlimit⟩⟩
    · exact hok
    · exact absurd hnests hlimit
    · exact absurd hheight (Nat.not_le_of_lt hlimit)

end Phrase

end PocketCalculator
