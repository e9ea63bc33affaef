import PocketCalculator.Evaluation
import PocketCalculator.Proofs.Decimal.Finite
import PocketCalculator.Proofs.Reading.Exact

/-!
# Values are finite

Operands are read as finite numbers, an operation gives a finite number or fails, and
rounding stays in range. So every value is finite.
-/
namespace PocketCalculator

namespace Expression

/-- Every number of the tree has the property. -/
def AllNumbers (P : Binary64 → Prop) : Expression → Prop
  | number value => P value
  | negate operand => operand.AllNumbers P
  | binary _ left right => left.AllNumbers P ∧ right.AllNumbers P

abbrev AllFinite (t : Expression) : Prop := t.AllNumbers fun value => value.isFinite = true

theorem AllNumbers.negateTimes {P : Binary64 → Prop} {t : Expression} (h : t.AllNumbers P)
    (n : Nat) : (t.negateTimes n).AllNumbers P := by
  unfold Expression.negateTimes
  split <;> exact h

end Expression

theorem Reads.exists_literal {tokens : List Token} {w : List Terminal} (h : Reads tokens w)
    {value : Binary64} (hvalue : .number value ∈ w) :
    ∃ literal, .literal literal ∈ tokens ∧ PocketCalculator.readOperand literal = .ok value := by
  induction h with
  | nil => cases hvalue
  | cons htoken _ ih =>
    rcases List.mem_cons.mp hvalue with rfl | hmem
    · obtain ⟨literal, rfl, hread⟩ := Token.of_terminal htoken
      exact ⟨literal, List.mem_cons_self, hread⟩
    · obtain ⟨literal, hliteral, hread⟩ := ih hmem
      exact ⟨literal, List.mem_cons_of_mem _ hliteral, hread⟩

theorem Derives.allNumbers {P : Binary64 → Prop} {k : Category} {w : List Terminal}
    {t : Expression} (h : Derives k w t) (hw : ∀ value, .number value ∈ w → P value) :
    t.AllNumbers P := by
  induction h with
  | number value => exact hw value (by simp)
  | group _ ih => exact ih fun value hv => hw value (by simp [hv])
  | signed n _ ih => exact (ih fun value hv => hw value (by simp [hv])).negateTimes n
  | unary _ ih => exact ih hw
  | term _ ih => exact ih hw
  | join _ _ _ ihl ihr =>
    exact ⟨ihl fun value hv => hw value (by simp [hv]),
      ihr fun value hv => hw value (by simp [hv])⟩

/-- The numbers of a parsed tree are those that its literals are read as. -/
theorem Expression.allNumbers_of_parse {P : Binary64 → Prop} {text : List Char} {t : Expression}
    (h : parse text = .ok t) (hP : ∀ literal value, .literal literal ∈ Token.scan text →
      readOperand literal = .ok value → P value) : t.AllNumbers P := by
  obtain ⟨⟨w, hw, hd⟩, -⟩ := denotes_of_ofTokens h
  refine hd.allNumbers fun value hvalue => ?_
  obtain ⟨literal, hliteral, hread⟩ := hw.exists_literal hvalue
  exact hP literal value hliteral hread

theorem Expression.allFinite_of_parse {text : List Char} {t : Expression}
    (h : parse text = .ok t) : t.AllFinite :=
  allNumbers_of_parse h fun _ _ _ hread => isFinite_of_readOperand hread

theorem isFinite_of_apply {op : Operator} {a b x : Binary64} (h : op.apply a b = .ok x) :
    x.isFinite = true := by
  have hchecked : ∀ result : Binary64,
      (if result.isFinite then Except.ok result else .error Fault.overflow) = .ok x →
        x.isFinite = true := by
    intro result hresult
    split at hresult
    · rename_i hfinite
      cases hresult
      exact hfinite
    · cases hresult
  unfold Operator.apply at h
  split at h
  · cases h
  · exact hchecked _ h

theorem exists_of_map_eq_ok {f : Binary64 → Binary64} {x : Except Fault Binary64} {y : Binary64}
    (h : x.map f = .ok y) : ∃ a, x = .ok a ∧ f a = y := by
  cases x with
  | error fault => cases h
  | ok a => exact ⟨a, rfl, Except.ok.inj h⟩

namespace Settings

variable {s : Settings}

theorem isFinite_of_calculate {op : Operator} {a b x : Binary64}
    (h : s.calculate op a b = .ok x) : x.isFinite = true := by
  unfold calculate at h
  split at h
  · obtain ⟨y, happly, rfl⟩ := exists_of_map_eq_ok h
    exact Binary64.isFinite_roundHalfAway (isFinite_of_apply happly) _
  · exact isFinite_of_apply h

theorem isFinite_of_reduce {t : Expression} {x : Binary64} (ht : t.AllFinite)
    (h : s.reduce t = .ok x) : x.isFinite = true := by
  induction t generalizing x with
  | number value =>
    cases h
    exact ht
  | negate operand ih =>
    obtain ⟨y, hoperand, rfl⟩ := exists_of_map_eq_ok h
    rw [Binary64.isFinite_neg]
    exact ih ht hoperand
  | binary op left right =>
    obtain ⟨a, _, h⟩ := Reader.bind_eq_ok h
    obtain ⟨b, _, h⟩ := Reader.bind_eq_ok h
    exact isFinite_of_calculate h

theorem exists_rounded_of_evaluateValue {text : List Char} {x : Binary64}
    (h : s.evaluateValue text = .ok x) :
    ∃ y : Binary64, y.isFinite = true ∧ x = y.roundHalfAway s.precision := by
  obtain ⟨t, ht, h⟩ := Reader.bind_eq_ok h
  obtain ⟨y, hy, h⟩ := Reader.bind_eq_ok h
  exact ⟨y, isFinite_of_reduce (Expression.allFinite_of_parse ht) hy, (Except.ok.inj h).symm⟩

theorem isFinite_of_evaluateValue {text : List Char} {x : Binary64}
    (h : s.evaluateValue text = .ok x) : x.isFinite = true := by
  obtain ⟨y, hy, rfl⟩ := exists_rounded_of_evaluateValue h
  exact Binary64.isFinite_roundHalfAway hy _

end Settings

end PocketCalculator
