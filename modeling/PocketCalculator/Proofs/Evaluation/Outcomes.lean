import PocketCalculator.Evaluation
import PocketCalculator.Proofs.Reading.Faults

/-!
# How evaluation ends

What is shown of an expression is the value of its tree. An expression that cannot be read
fails for the same reason, and one that can be read only because of one of its operations.
-/
namespace PocketCalculator

namespace Settings

variable {s : Settings} {text text' : List Char}

/-! ## From the tokens on -/

theorem evaluateValue_congr (h : Token.scan text = Token.scan text') (s : Settings) :
    s.evaluateValue text = s.evaluateValue text' := by
  rw [evaluateValue, Expression.parse, h, evaluateValue, Expression.parse]

theorem evaluate_congr (h : Token.scan text = Token.scan text') (s : Settings) :
    s.evaluate text = s.evaluate text' := by
  rw [evaluate, evaluateValue_congr h, evaluate]

/-! ## From the tree on -/

theorem evaluateValue_of_parse {tree : Expression} (h : Expression.parse text = .ok tree)
    (s : Settings) :
    s.evaluateValue text = (s.reduce tree).map (·.roundHalfAway s.precision) := by
  rw [evaluateValue, h]
  cases hreduce : s.reduce tree <;> simp only [bind, Except.bind, hreduce] <;> rfl

theorem evaluate_of_parse_error {fault : Fault} (h : Expression.parse text = .error fault)
    (s : Settings) : s.evaluate text = .error fault := by
  rw [evaluate, evaluateValue, h]
  rfl

theorem evaluate_of_reduce_error {tree : Expression} {fault : Fault}
    (h : Expression.parse text = .ok tree) (hreduce : s.reduce tree = .error fault) :
    s.evaluate text = .error fault := by
  rw [evaluate, evaluateValue, h]
  simp only [bind, Except.bind, hreduce]

theorem evaluate_of_reduce {tree : Expression} {x : Binary64}
    (h : Expression.parse text = .ok tree) (hreduce : s.reduce tree = .ok x) :
    s.evaluate text = .ok ((x.roundHalfAway s.precision).displayText s.precision) := by
  rw [evaluate, evaluateValue, h]
  simp only [bind, Except.bind, hreduce, pure, Except.pure]

end Settings

theorem fault_of_apply {op : Operator} {a b : Binary64} {fault : Fault}
    (h : op.apply a b = .error fault) : fault = .divisionByZero ∨ fault = .overflow := by
  have hchecked : ∀ result : Binary64,
      (if result.isFinite then Except.ok result else .error Fault.overflow) = .error fault →
        fault = .overflow := by
    intro result hresult
    split at hresult
    · cases hresult
    · cases hresult
      rfl
  unfold Operator.apply at h
  split at h
  · cases h
    exact Or.inl rfl
  · exact Or.inr (hchecked _ h)

theorem fault_of_map {f : Binary64 → Binary64} {x : Except Fault Binary64} {fault : Fault}
    (h : x.map f = .error fault) : x = .error fault := by
  cases x with
  | error fault' =>
    cases h
    rfl
  | ok a => cases h

theorem Settings.fault_of_calculate {s : Settings} {op : Operator} {a b : Binary64}
    {fault : Fault} (h : s.calculate op a b = .error fault) :
    fault = .divisionByZero ∨ fault = .overflow := by
  unfold calculate at h
  split at h
  · exact fault_of_apply (fault_of_map h)
  · exact fault_of_apply h

theorem Settings.fault_of_reduce {s : Settings} {t : Expression} {fault : Fault}
    (h : s.reduce t = .error fault) : fault = .divisionByZero ∨ fault = .overflow := by
  induction t with
  | number value => cases h
  | negate operand ih => exact ih (fault_of_map h)
  | binary op left right ihl ihr =>
    rcases Reader.bind_eq_error h with hleft | ⟨a, _, h⟩
    · exact ihl hleft
    · rcases Reader.bind_eq_error h with hright | ⟨b, _, h⟩
      · exact ihr hright
      · exact fault_of_calculate h

/-- An expression without a value cannot be read, or one of its operations fails. -/
theorem Settings.fault_of_evaluate {s : Settings} {text : List Char} {fault : Fault}
    (h : s.evaluate text = .error fault) :
    Expression.parse text = .error fault ∨ fault = .divisionByZero ∨ fault = .overflow := by
  rcases Reader.bind_eq_error h with hvalue | ⟨value, _, hshown⟩
  · rcases Reader.bind_eq_error hvalue with hparse | ⟨tree, _, hreduce⟩
    · exact Or.inl hparse
    · rcases Reader.bind_eq_error hreduce with hfault | ⟨value, _, hrounded⟩
      · exact Or.inr (fault_of_reduce hfault)
      · cases hrounded
  · cases hshown

end PocketCalculator
