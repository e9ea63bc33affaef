import PocketCalculator.Expression.Parse

/-!
# What the readers do, step by step

One equation for each reader, without the bounds on lengths that readers carry.
-/
namespace PocketCalculator.Reader

variable {precedence : Nat} {operand primary inner : Reader} {left : Branch} {c : Cursor}
  {token : Token} {rest : List Token}

theorem fold_of_nil (h : c.rest = []) :
    (fold precedence operand left c).val = ⟨.ok left, c⟩ := by
  rw [fold]
  split
  · rfl
  · rename_i hc
    simp [h] at hc

theorem fold_of_stop (h : c.rest = token :: rest) (hop : operatorAt precedence token = none) :
    (fold precedence operand left c).val = ⟨.ok left, c⟩ := by
  rw [fold]
  split
  · rfl
  · rename_i hc
    rw [h] at hc
    cases hc
    simp [hop, Reply.stay]

theorem fold_of_operator {op : Operator} (h : c.rest = token :: rest)
    (hop : operatorAt precedence token = some op) :
    (fold precedence operand left c).val =
      match (operand c.advance).val.outcome.bind (Branch.join op left) with
      | .error fault => ⟨.error fault, (operand c.advance).val.cursor⟩
      | .ok joined => (fold precedence operand joined (operand c.advance).val.cursor).val := by
  rw [fold]
  split
  · rename_i hc
    simp [h] at hc
  · rename_i hc
    rw [h] at hc
    cases hc
    simp only [hop]
    split
    · rename_i hj
      rw [hj]
    · rename_i hj
      rw [hj]
      rfl

/-- No operator of the precedence comes next. -/
def StopsAt (precedence : Nat) (rest : List Token) : Prop :=
  ∀ token ∈ rest.head?, operatorAt precedence token = none

theorem fold_of_stopsAt (h : StopsAt precedence c.rest) :
    (fold precedence operand left c).val = ⟨.ok left, c⟩ := by
  obtain ⟨tokens, position, depth⟩ := c
  cases tokens with
  | nil => exact fold_of_nil rfl
  | cons token rest => exact fold_of_stop rfl (h token rfl)

/-- No operator comes next, nor a negation. -/
def AfterExpression (rest : List Token) : Prop :=
  StopsAt Operator.multiply.precedence rest ∧ StopsAt Operator.add.precedence rest

theorem afterExpression_nil : AfterExpression [] := by
  constructor <;> rintro _ ⟨⟩

theorem afterExpression_closeParen (rest : List Token) : AfterExpression (.closeParen :: rest) := by
  constructor <;> rintro _ ⟨⟩ <;> rfl

/-- A fold stops, fails with the operand after an operator or with joining it, or goes on after
that operand. -/
@[elab_as_elim]
theorem fold_induction {motive : Branch → Cursor → Reading → Prop}
    (stop : ∀ left c, StopsAt precedence c.rest → motive left c ⟨.ok left, c⟩)
    (fail : ∀ left c token rest op fault, c.rest = token :: rest →
      operatorAt precedence token = some op →
      (operand c.advance).val.outcome.bind (Branch.join op left) = .error fault →
      motive left c ⟨.error fault, (operand c.advance).val.cursor⟩)
    (next : ∀ left c token rest op joined r, c.rest = token :: rest →
      operatorAt precedence token = some op →
      (operand c.advance).val.outcome.bind (Branch.join op left) = .ok joined →
      motive joined (operand c.advance).val.cursor r → motive left c r)
    (left : Branch) (c : Cursor) : motive left c (fold precedence operand left c).val := by
  obtain ⟨n, hn⟩ : ∃ n, c.rest.length = n := ⟨_, rfl⟩
  induction n using Nat.strongRecOn generalizing c left with
  | _ n ih =>
    by_cases hstop : StopsAt precedence c.rest
    · rw [fold_of_stopsAt hstop]
      exact stop left c hstop
    · have hnil : c.rest ≠ [] := by
        intro hnil
        simp [StopsAt, hnil] at hstop
      obtain ⟨token, rest, hr⟩ := List.exists_cons_of_ne_nil hnil
      cases hop : operatorAt precedence token with
      | none =>
        simp [StopsAt, hr, hop] at hstop
      | some op =>
        rw [fold_of_operator hr hop]
        cases hj : (operand c.advance).val.outcome.bind (Branch.join op left) with
        | error fault => exact fail left c token rest op fault hr hop hj
        | ok joined =>
          have hshort : (operand c.advance).val.cursor.rest.length < n :=
            hn ▸ Nat.lt_of_le_of_lt (operand c.advance).property
              (Cursor.advance_rest_length_lt hr)
          exact next left c token rest op joined _ hr hop hj (ih _ hshort joined _ rfl)

theorem chain_val (precedence : Nat) (operand : Reader) (c : Cursor) :
    (chain precedence operand c).val =
      match (operand c).val.outcome with
      | .error fault => ⟨.error fault, (operand c).val.cursor⟩
      | .ok left => (fold precedence operand left (operand c).val.cursor).val := by
  rw [chain]
  split
  · rename_i hr
    rw [hr]
  · rename_i hr
    rw [hr]
    rfl

theorem signed_val (primary : Reader) (c : Cursor) :
    (signed primary c).val =
      if (c.rest.takeWhile (· == .negation)).length % 2 = 0 then (primary c.skipNegations).val
      else ⟨(primary c.skipNegations).val.outcome.bind Branch.negate,
        (primary c.skipNegations).val.cursor⟩ := by
  simp only [signed]
  split <;> rfl

/-- How a group ends when the expression inside has been read up to the cursor. -/
def closeGroup (branch : Branch) (closing : Cursor) : Reading :=
  match closing.rest with
  | [] => ⟨.error .unclosedGroup, closing⟩
  | .closeParen :: _ => ⟨.ok branch, closing.advance⟩
  | token :: _ => ⟨.error (.missingOperator token), closing.advance⟩

theorem group_val (inner : Reader) (c : Cursor) :
    (group inner c).val =
      match (inner { c with depth := c.depth + 1 }).val with
      | ⟨.error fault, next⟩ => ⟨.error fault, next⟩
      | ⟨.ok branch, next⟩ => closeGroup branch { next with depth := next.depth - 1 } := by
  rw [group]
  split
  · rename_i hr
    rw [hr]
  · rename_i branch next _ hr
    rw [hr]
    obtain ⟨tokens, position, depth⟩ := next
    cases tokens with
    | nil => rfl
    | cons token rest => cases token <;> rfl

section Atom

variable {inside : Reader}

theorem atom_of_nil (h : c.rest = []) :
    (atom inside c).val = ⟨.error .missingOperandAtEnd, c⟩ := by
  rw [atom]
  split <;> simp_all [Reply.stay]

theorem atom_of_literal {text : List Char} (h : c.rest = .literal text :: rest) :
    (atom inside c).val = ⟨(readOperand text).map Branch.number, c.advance⟩ := by
  rw [atom]
  split <;> simp_all [Reply.stay, Reply.advance, Reply.widen]

theorem atom_of_operator {op : Operator} (h : c.rest = .operator op :: rest) :
    (atom inside c).val = ⟨.error (.missingOperand op.glyph), c.advance⟩ := by
  rw [atom]
  split <;> simp_all [Reply.stay, Reply.advance, Reply.widen]

theorem atom_of_negation (h : c.rest = .negation :: rest) :
    (atom inside c).val = ⟨.error (.missingOperand Operator.subtract.glyph), c.advance⟩ := by
  rw [atom]
  split <;> simp_all [Reply.stay, Reply.advance, Reply.widen]

theorem atom_of_closeParen (h : c.rest = .closeParen :: rest) :
    (atom inside c).val =
      ⟨.error (if c.depth = 0 then .unmatchedClose c.position else .missingOperand ')'),
        c.advance⟩ := by
  rw [atom]
  split <;> simp_all [Reply.stay, Reply.advance, Reply.widen]
  split <;> rfl

theorem atom_outcome_error (inside : Reader) (h : c.rest = token :: rest)
    (hl : token.isLiteral = false) (ho : token ≠ .openParen) :
    ∃ fault, (atom inside c).val = ⟨.error fault, c.advance⟩ ∧
      (fault.kind = .numberFormat ∨ token = .closeParen ∧ c.depth = 0) := by
  cases token with
  | literal text => cases hl
  | operator op => exact ⟨_, atom_of_operator h, Or.inl rfl⟩
  | negation => exact ⟨_, atom_of_negation h, Or.inl rfl⟩
  | openParen => exact absurd rfl ho
  | closeParen =>
    refine ⟨_, atom_of_closeParen h, ?_⟩
    by_cases hd : c.depth = 0
    · exact Or.inr ⟨rfl, hd⟩
    · rw [if_neg hd]
      exact Or.inl rfl

/-- Other than at the end, a token is taken, and if it opens a group that is read. -/
theorem atom_val_of_cons (inside : Reader) (h : c.rest = token :: rest) :
    (∃ outcome, (atom inside c).val = ⟨outcome, c.advance⟩) ∨
      (atom inside c).val = (inside c.advance).val := by
  by_cases ho : token = .openParen
  · subst ho
    exact Or.inr (atom_of_openParen h)
  · refine Or.inl ?_
    cases hl : token.isLiteral with
    | true =>
      cases token with
      | literal text => exact ⟨_, atom_of_literal h⟩
      | _ => cases hl
    | false =>
      obtain ⟨fault, hfault, -⟩ := atom_outcome_error inside h hl ho
      exact ⟨_, hfault⟩

end Atom

end PocketCalculator.Reader
