import PocketCalculator.Expression.Parse
import PocketCalculator.Proofs.Brackets

/-!
# The grammar of expressions

An expression is a sum of terms, a term a product of unaries, a unary a primary after any
number of negations, and a primary a number or a group. Sums and products are folded to the
left, a negation between two terms subtracts, and of the negations before a primary two
cancel. The grammar is over terminals, which are tokens with their literals read.
-/
namespace PocketCalculator

inductive Terminal where
  | number (value : Binary64)
  | operator (op : Operator)
  | negation
  | openParen
  | closeParen
  deriving DecidableEq, Repr

/-- The terminal that a token stands for. A literal has to be an operand. -/
def Token.terminal : Token → Except Fault Terminal
  | literal text => (readOperand text).map .number
  | operator op => .ok (.operator op)
  | negation => .ok .negation
  | openParen => .ok .openParen
  | closeParen => .ok .closeParen

/-- Every token stands for the terminal at its place, so every literal is an operand. -/
abbrev Reads (tokens : List Token) (terminals : List Terminal) : Prop :=
  List.Forall₂ (fun token terminal => token.terminal = .ok terminal) tokens terminals

inductive Category where
  | expression
  | term
  | unary
  | primary
  deriving DecidableEq, Repr

/-- The terminals that join a left side of the first category to a right side of the second,
with the operators they stand for. -/
inductive Joins : Category → Terminal → Operator → Category → Prop
  | plus : Joins .expression (.operator .add) .add .term
  | minus : Joins .expression (.operator .subtract) .subtract .term
  | negation : Joins .expression .negation .subtract .term
  | times : Joins .term (.operator .multiply) .multiply .unary
  | over : Joins .term (.operator .divide) .divide .unary

def Expression.negateTimes (n : Nat) (t : Expression) : Expression :=
  if n % 2 = 0 then t else .negate t

/-- The tree that a word of terminals has as a phrase of a category. -/
inductive Derives : Category → List Terminal → Expression → Prop
  | number (value : Binary64) : Derives .primary [.number value] (.number value)
  | group {w : List Terminal} {t : Expression} : Derives .expression w t →
      Derives .primary (.openParen :: (w ++ [.closeParen])) t
  | signed (n : Nat) {w : List Terminal} {t : Expression} : Derives .primary w t →
      Derives .unary (List.replicate n .negation ++ w) (t.negateTimes n)
  | unary {w : List Terminal} {t : Expression} : Derives .unary w t → Derives .term w t
  | term {w : List Terminal} {t : Expression} : Derives .term w t → Derives .expression w t
  | join {outer inner : Category} {x : Terminal} {op : Operator} {u w : List Terminal}
      {l r : Expression} : Derives outer u l → Joins outer x op inner → Derives inner w r →
      Derives outer (u ++ x :: w) (.binary op l r)

/-- The tree that tokens denote: all literals are operands, and the grammar derives it. -/
def Denotes (tokens : List Token) (t : Expression) : Prop :=
  ∃ terminals, Reads tokens terminals ∧ Derives .expression terminals t

def Token.brackets : Brackets Token := ⟨.openParen, .closeParen, by decide⟩

def Terminal.brackets : Brackets Terminal := ⟨.openParen, .closeParen, by decide⟩

open Brackets

/-- The tokens that stand for a given terminal. -/
theorem Token.of_terminal {token : Token} {x : Terminal} (h : token.terminal = .ok x) :
    match x with
    | .number value => ∃ text, token = .literal text ∧ readOperand text = .ok value
    | .operator op => token = .operator op
    | .negation => token = .negation
    | .openParen => token = .openParen
    | .closeParen => token = .closeParen := by
  cases token with
  | literal text =>
    cases hr : readOperand text with
    | error fault => simp [terminal, hr, Except.map] at h
    | ok value =>
      simp only [terminal, hr, Except.map, Except.ok.injEq] at h
      subst h
      exact ⟨text, rfl, hr⟩
  | operator op => cases h; rfl
  | negation => cases h; rfl
  | openParen => cases h; rfl
  | closeParen => cases h; rfl

theorem matching_terminal :
    Matching Token.brackets Terminal.brackets fun token terminal =>
      token.terminal = .ok terminal := by
  intro token x h
  cases x with
  | number value =>
    obtain ⟨text, rfl, _⟩ := Token.of_terminal h
    simp [Token.brackets, Terminal.brackets]
  | _ =>
    cases Token.of_terminal h
    simp [Token.brackets, Terminal.brackets]

theorem Reads.nestsWithin_iff {limit : Nat} {tokens : List Token} {w : List Terminal}
    (h : Reads tokens w) :
    Token.brackets.NestsWithin limit tokens ↔ Terminal.brackets.NestsWithin limit w :=
  nestsWithin_iff_of_marks (matching_terminal.marks_eq h)

theorem exists_reads {tokens : List Token}
    (h : ∀ literal, .literal literal ∈ tokens → ∃ value, readOperand literal = .ok value) :
    ∃ terminals, Reads tokens terminals := by
  induction tokens with
  | nil => exact ⟨[], .nil⟩
  | cons token tokens ih =>
    obtain ⟨terminals, hrest⟩ := ih fun literal hl => h literal (by simp [hl])
    have hfirst : ∃ x, token.terminal = .ok x := by
      cases token with
      | literal text =>
        obtain ⟨value, hvalue⟩ := h text (by simp)
        exact ⟨.number value, by simp [Token.terminal, hvalue, Except.map]⟩
      | _ => exact ⟨_, rfl⟩
    obtain ⟨x, hx⟩ := hfirst
    exact ⟨x :: terminals, .cons hx hrest⟩

theorem reads_replicate {token : Token} {x : Terminal} (h : token.terminal = .ok x) (n : Nat) :
    Reads (List.replicate n token) (List.replicate n x) := by
  induction n with
  | zero => exact .nil
  | succ n ih => exact .cons h ih

theorem Reads.readOperand {tokens : List Token} {terminals : List Terminal}
    (h : Reads tokens terminals) {literal : List Char} (hl : .literal literal ∈ tokens) :
    ∃ value, readOperand literal = .ok value := by
  induction h with
  | nil => cases hl
  | @cons token x _ _ hx _ ih =>
    rcases List.mem_cons.mp hl with rfl | hl
    · cases hread : PocketCalculator.readOperand literal with
      | error fault => simp [Token.terminal, hread, Except.map] at hx
      | ok value => exact ⟨value, rfl⟩
    · exact ih hl

theorem Reads.append_inv {tokens : List Token} {u w : List Terminal}
    (h : Reads tokens (u ++ w)) : ∃ us ws, tokens = us ++ ws ∧ Reads us u ∧ Reads ws w :=
  ⟨tokens.take u.length, tokens.drop u.length, (List.take_append_drop _ _).symm,
    List.forall₂_take_append _ _ _ h, List.forall₂_drop_append _ _ _ h⟩

theorem Reads.cons_inv {tokens : List Token} {x : Terminal} {w : List Terminal}
    (h : Reads tokens (x :: w)) :
    ∃ token rest, tokens = token :: rest ∧ token.terminal = .ok x ∧ Reads rest w := by
  obtain ⟨token, rest, hx, hw, rfl⟩ := List.forall₂_cons_right_iff.mp h
  exact ⟨token, rest, rfl, hx, hw⟩

/-! ## Words of the grammar -/

theorem Joins.ne_parens {outer inner : Category} {x : Terminal} {op : Operator}
    (h : Joins outer x op inner) : x ≠ .openParen ∧ x ≠ .closeParen := by
  cases h <;> exact ⟨by simp, by simp⟩

theorem balanced_replicate_negation (n : Nat) :
    Terminal.brackets.Balanced (List.replicate n .negation) := by
  induction n with
  | zero => exact balanced_nil
  | succ n ih => exact ih.cons_other (by simp [Terminal.brackets]) (by simp [Terminal.brackets])

/-- Every phrase closes exactly the groups it opens. -/
theorem Derives.balanced {category : Category} {w : List Terminal} {t : Expression}
    (h : Derives category w t) : Terminal.brackets.Balanced w := by
  induction h with
  | number value =>
    exact balanced_nil.cons_other (by simp [Terminal.brackets]) (by simp [Terminal.brackets])
  | group _ ih => exact ih.group
  | signed n _ ih => exact (balanced_replicate_negation n).append ih
  | unary _ ih => exact ih
  | term _ ih => exact ih
  | join _ hj _ ihl ihr => exact ihl.append (ihr.cons_other hj.ne_parens.1 hj.ne_parens.2)

theorem Derives.ne_nil {category : Category} {w : List Terminal} {t : Expression}
    (h : Derives category w t) : w ≠ [] := by
  induction h with
  | signed n _ ih => simp [ih]
  | unary _ ih => exact ih
  | term _ ih => exact ih
  | _ => simp

theorem Joins.operator {outer inner : Category} {x : Terminal} {op : Operator}
    (h : Joins outer x op inner) : Joins outer (.operator op) op inner := by
  cases h <;> constructor

theorem Joins.eq_operator_or_negation {outer inner : Category} {x : Terminal} {op : Operator}
    (h : Joins outer x op inner) : x = .operator op ∨ x = .negation := by
  cases h <;> simp

/-- The least precedence of an operator outside all groups in a phrase of the category. -/
def Category.level : Category → Nat
  | expression => 1
  | term => 2
  | unary => 3
  | primary => 4

theorem Joins.precedence {outer inner : Category} {x : Terminal} {op : Operator}
    (h : Joins outer x op inner) :
    op.precedence = outer.level ∧ inner.level = outer.level + 1 := by
  cases h <;> exact ⟨rfl, rfl⟩

/-- The categories whose phrases are folded to the left, each with that of its operands. -/
inductive Folds : Category → Category → Prop
  | expression : Folds .expression .term
  | term : Folds .term .unary

theorem Joins.folds {outer inner : Category} {x : Terminal} {op : Operator}
    (h : Joins outer x op inner) : Folds outer inner := by
  cases h <;> constructor

theorem Folds.unique {outer inner inner' : Category} (h : Folds outer inner)
    (h' : Folds outer inner') : inner = inner' := by
  cases h <;> cases h' <;> rfl

theorem Derives.of_folds {outer inner : Category} {w : List Terminal} {t : Expression}
    (hf : Folds outer inner) (h : Derives inner w t) : Derives outer w t := by
  cases hf with
  | expression => exact .term h
  | term => exact .unary h

/-- A folded phrase is an operand, or a shorter one with one more operand joined to it. -/
@[elab_as_elim]
theorem Derives.fold_induction {outer inner : Category} {P : List Terminal → Expression → Prop}
    (hf : Folds outer inner) (operand : ∀ w t, Derives inner w t → P w t)
    (join : ∀ u x op w l r, Derives outer u l → P u l → Joins outer x op inner →
      Derives inner w r → P (u ++ x :: w) (.binary op l r))
    {w : List Terminal} {t : Expression} (h : Derives outer w t) : P w t := by
  induction h with
  | number value => cases hf
  | group h ih => cases hf
  | signed n h ih => cases hf
  | unary h ih => cases hf; exact operand _ _ h
  | term h ih => cases hf; exact operand _ _ h
  | join hl hj hr ihl ihr =>
    obtain rfl := hf.unique hj.folds
    exact join _ _ _ _ _ _ hl (ihl hf join) hj hr

theorem Derives.value (category : Category) (v : Binary64) :
    Derives category [.number v] (.number v) := by
  have hu : Derives .unary [.number v] (.number v) := .signed 0 (.number v)
  cases category with
  | expression => exact .term (.unary hu)
  | term => exact .unary hu
  | unary => exact hu
  | primary => exact .number v

theorem Derives.primary_cases {w : List Terminal} {t : Expression} (h : Derives .primary w t) :
    (∃ value, w = [.number value] ∧ t = .number value) ∨
      ∃ inner, w = .openParen :: (inner ++ [.closeParen]) ∧ Derives .expression inner t := by
  cases h with
  | number value => exact Or.inl ⟨value, rfl, rfl⟩
  | group h => exact Or.inr ⟨_, rfl, h⟩
  | join _ hj _ => cases hj

theorem Derives.unary_cases {w : List Terminal} {t : Expression} (h : Derives .unary w t) :
    ∃ n v s, w = List.replicate n .negation ++ v ∧ t = s.negateTimes n ∧
      Derives .primary v s := by
  cases h with
  | signed n h => exact ⟨n, _, _, rfl, rfl, h⟩
  | join _ hj _ => cases hj

theorem Denotes.balanced {tokens : List Token} {t : Expression} (h : Denotes tokens t) :
    Token.brackets.Balanced tokens := by
  obtain ⟨terminals, hr, hd⟩ := h
  exact (closesAll_iff_of_marks (matching_terminal.marks_eq hr)).mpr hd.balanced

theorem Denotes.ne_nil {tokens : List Token} {t : Expression} (h : Denotes tokens t) :
    tokens ≠ [] := by
  rintro rfl
  obtain ⟨terminals, hr, hd⟩ := h
  exact hd.ne_nil (List.forall₂_nil_left_iff.mp hr)

end PocketCalculator
