import PocketCalculator.Proofs.Grammar

/-!
# Which words are expressions

Two things decide whether a terminal may come next: whether a value stands before it, and
how many groups are open. A word is an expression exactly when every terminal of it may come
next and a value stands at the end outside all groups.
-/
namespace PocketCalculator

/-- What a word has led up to. -/
structure Frontier where
  afterValue : Bool
  opened : Nat
  deriving DecidableEq, Repr

namespace Frontier

def start : Frontier := ⟨false, 0⟩

/-- The frontier after one more terminal, if it may come next. -/
def next (f : Frontier) : Terminal → Option Frontier
  | .number _ => if f.afterValue then none else some ⟨true, f.opened⟩
  | .operator _ => if f.afterValue then some ⟨false, f.opened⟩ else none
  | .negation => some ⟨false, f.opened⟩
  | .openParen => if f.afterValue then none else some ⟨false, f.opened + 1⟩
  | .closeParen =>
    if f.afterValue && 0 < f.opened then some ⟨true, f.opened - 1⟩ else none

def run (f : Frontier) (w : List Terminal) : Option Frontier := w.foldlM next f

theorem run_append (f : Frontier) (u w : List Terminal) :
    f.run (u ++ w) = (f.run u).bind fun g => g.run w := List.foldlM_append

theorem run_singleton (f : Frontier) (x : Terminal) : f.run [x] = f.next x := by
  rw [run, List.foldlM_cons]
  cases f.next x <;> rfl

theorem run_cons (f : Frontier) (x : Terminal) (w : List Terminal) :
    f.run (x :: w) = (f.next x).bind fun g => g.run w := List.foldlM_cons

theorem run_replicate_negation (n opened : Nat) :
    run ⟨false, opened⟩ (List.replicate n .negation) = some ⟨false, opened⟩ := by
  induction n with
  | zero => rfl
  | succ n ih =>
    rw [List.replicate_succ, run_cons]
    exact ih

theorem next_of_joins {outer inner : Category} {x : Terminal} {op : Operator}
    (h : Joins outer x op inner) (opened : Nat) :
    next ⟨true, opened⟩ x = some ⟨false, opened⟩ := by
  cases h <;> rfl

/-- A phrase stands where a value may come, and is one. -/
theorem run_of_derives {category : Category} {w : List Terminal} {t : Expression}
    (h : Derives category w t) (opened : Nat) :
    run ⟨false, opened⟩ w = some ⟨true, opened⟩ := by
  induction h generalizing opened with
  | number value => rfl
  | group _ ih =>
    rw [run_cons, next, if_neg (by simp), Option.bind_some, run_append, ih, Option.bind_some,
      run_singleton]
    simp [next]
  | signed n _ ih => rw [run_append, run_replicate_negation, Option.bind_some, ih]
  | unary _ ih => exact ih opened
  | term _ ih => exact ih opened
  | join _ hj _ ihl ihr =>
    rw [run_append, ihl, Option.bind_some, run_cons, next_of_joins hj, Option.bind_some, ihr]

end Frontier

/-- The terminal of a token, a literal being some number. -/
def Token.shape : Token → Terminal
  | literal _ => .number (.zero false)
  | operator op => .operator op
  | negation => .negation
  | openParen => .openParen
  | closeParen => .closeParen

/-- Which number a literal stands for does not matter for what may follow it. -/
theorem Frontier.run_shape {tokens : List Token} {w : List Terminal} (h : Reads tokens w)
    (f : Frontier) : f.run (tokens.map Token.shape) = f.run w := by
  induction h generalizing f with
  | nil => rfl
  | @cons token x tokens w hx _ ih =>
    have hnext : f.next token.shape = f.next x := by
      cases x with
      | number value =>
        obtain ⟨text, rfl, _⟩ := Token.of_terminal hx
        rfl
      | _ => cases Token.of_terminal hx; rfl
    rw [List.map_cons, run_cons, run_cons, hnext]
    congr 1
    exact funext ih

/-! ## Words that can be completed -/

/-- The word is an expression. -/
def IsExpression (w : List Terminal) : Prop := ∃ t, Derives .expression w t

/-- With any signed primary after it the word is an expression. -/
def Awaits (g : List Terminal) : Prop :=
  ∀ w t, Derives .unary w t → IsExpression (g ++ w)

theorem awaits_nil : Awaits [] := fun _ t h => ⟨t, .term (.unary h)⟩

theorem Awaits.negation {g : List Terminal} (h : Awaits g) : Awaits (g ++ [.negation]) := by
  intro w t hw
  obtain ⟨n, v, s, rfl, rfl, hv⟩ := hw.unary_cases
  have hlonger := h _ _ (.signed (n + 1) hv)
  rwa [List.append_assoc, List.singleton_append, ← List.cons_append, ← List.replicate_succ]

theorem Awaits.primary {g w : List Terminal} {t : Expression} (h : Awaits g)
    (hw : Derives .primary w t) : IsExpression (g ++ w) := by
  have hunary : Derives .unary w (t.negateTimes 0) := .signed 0 hw
  exact h w _ hunary

theorem Derives.join_term {g w : List Terminal} {l r : Expression} {x : Terminal}
    {op : Operator} (hg : Derives .expression g l) (hx : Joins .term x op .unary)
    (hw : Derives .unary w r) : IsExpression (g ++ x :: w) := by
  refine hg.fold_induction .expression ?_ ?_
  · intro v s hv
    exact ⟨_, .term (.join hv hx hw)⟩
  · intro u y op' v l' r' hu _ hy hv
    rw [List.append_assoc, List.cons_append]
    exact ⟨_, .join hu hy (.join hv hx hw)⟩

theorem IsExpression.operator {g : List Terminal} (h : IsExpression g) (op : Operator) :
    Awaits (g ++ [.operator op]) := by
  intro w t hw
  obtain ⟨s, hg⟩ := h
  rw [List.append_assoc, List.singleton_append]
  cases op with
  | add => exact ⟨_, .join hg .plus (.unary hw)⟩
  | subtract => exact ⟨_, .join hg .minus (.unary hw)⟩
  | multiply => exact hg.join_term .times hw
  | divide => exact hg.join_term .over hw

theorem IsExpression.negation {g : List Terminal} (h : IsExpression g) :
    Awaits (g ++ [.negation]) := by
  intro w t hw
  obtain ⟨s, hg⟩ := h
  rw [List.append_assoc, List.singleton_append]
  exact ⟨_, .join hg .negation (.unary hw)⟩

/-- A word that ends in the opening parentheses of groups, each of which may come where it
stands. -/
inductive Encloses : Nat → List Terminal → Prop
  | outside : Encloses 0 []
  | group {opened : Nat} {u g : List Terminal} : Encloses opened u → Awaits g →
      Encloses (opened + 1) (u ++ (g ++ [.openParen]))

/-- A word that leads up to a frontier: inside the open groups an expression if a value
stands at the end, else what awaits one. -/
structure Viable (f : Frontier) (w : List Terminal) : Prop where
  split : ∃ u g, w = u ++ g ∧ Encloses f.opened u ∧
    if f.afterValue then IsExpression g else Awaits g

theorem viable_start : Viable Frontier.start [] :=
  ⟨[], [], rfl, .outside, awaits_nil⟩

/-- A terminal that may come next leads from one viable word to another. -/
theorem Viable.next {f f' : Frontier} {w : List Terminal} {x : Terminal} (h : Viable f w)
    (hx : f.next x = some f') : Viable f' (w ++ [x]) := by
  obtain ⟨u, g, rfl, hu, hg⟩ := h.split
  obtain ⟨afterValue, opened⟩ := f
  rw [List.append_assoc]
  cases x with
  | number value =>
    cases afterValue with
    | true => cases hx
    | false =>
      cases hx
      exact ⟨u, _, rfl, hu, Awaits.primary hg (.number value)⟩
  | operator op =>
    cases afterValue with
    | true =>
      cases hx
      exact ⟨u, _, rfl, hu, IsExpression.operator hg op⟩
    | false => cases hx
  | negation =>
    cases hx
    cases afterValue with
    | true => exact ⟨u, _, rfl, hu, IsExpression.negation hg⟩
    | false => exact ⟨u, _, rfl, hu, Awaits.negation hg⟩
  | openParen =>
    cases afterValue with
    | true => cases hx
    | false =>
      cases hx
      exact ⟨_, [], (List.append_nil _).symm, .group hu hg, awaits_nil⟩
  | closeParen =>
    cases afterValue with
    | false => cases hx
    | true =>
      cases hu with
      | outside => cases hx
      | @group opened v before hv hbefore =>
        -- The group becomes a value for what awaited one where it was opened.
        cases hx
        obtain ⟨t, ht⟩ := hg
        have hgroup := hbefore.primary (.group ht)
        refine ⟨v, before ++ .openParen :: (g ++ [.closeParen]), by simp, hv, ?_⟩
        exact hgroup

theorem Viable.run {f f' : Frontier} {u w : List Terminal} (h : Viable f u)
    (hw : f.run w = some f') : Viable f' (u ++ w) := by
  induction w generalizing f u with
  | nil =>
    cases hw
    simpa using h
  | cons x w ih =>
    rw [Frontier.run_cons] at hw
    obtain ⟨g, hx, hg⟩ := Option.bind_eq_some_iff.mp hw
    have hw' := ih (h.next hx) hg
    rwa [List.append_assoc, List.singleton_append] at hw'

/-- A word is an expression exactly when it leads up to a value outside all groups. -/
theorem isExpression_iff_run (w : List Terminal) :
    IsExpression w ↔ Frontier.start.run w = some ⟨true, 0⟩ := by
  constructor
  · rintro ⟨t, h⟩
    exact Frontier.run_of_derives h 0
  · intro h
    obtain ⟨u, g, hw, hu, hg⟩ := (viable_start.run h).split
    cases hu
    rw [List.nil_append, List.nil_append] at hw
    rw [hw]
    exact hg

/-! ## Words that can be continued -/

/-- Terminals that lead from the frontier to a value outside all groups. -/
def Frontier.completion (f : Frontier) : List Terminal :=
  (if f.afterValue then [] else [.number (.zero false)]) ++ List.replicate f.opened .closeParen

theorem Frontier.run_completion (f : Frontier) : f.run f.completion = some ⟨true, 0⟩ := by
  have hclose : ∀ n, run ⟨true, n⟩ (List.replicate n .closeParen) = some ⟨true, 0⟩ := by
    intro n
    induction n with
    | zero => rfl
    | succ n ih =>
      rw [List.replicate_succ, run_cons]
      exact ih
  obtain ⟨afterValue, opened⟩ := f
  cases afterValue <;> exact hclose opened

/-- A word of which every terminal may come next can be completed. -/
theorem isExpression_append_completion {f : Frontier} {w : List Terminal}
    (h : Frontier.start.run w = some f) : IsExpression (w ++ f.completion) := by
  rw [isExpression_iff_run, Frontier.run_append, h]
  exact f.run_completion

theorem not_isExpression_append {w : List Terminal} (h : Frontier.start.run w = none)
    (later : List Terminal) : ¬IsExpression (w ++ later) := by
  rw [isExpression_iff_run, Frontier.run_append, h]
  simp

end PocketCalculator
