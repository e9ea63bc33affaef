import PocketCalculator.Binary64.Arithmetic
import PocketCalculator.Decimal.Display
import PocketCalculator.Expression.Parse

/-!
# Evaluation

The value of an expression under given settings: when values are rounded, and to how many
fraction digits. A calculator that rounds at every step rounds the operands and the result
of each operation; the other kind computes in binary throughout. Either way the value of a
whole expression is rounded before it is shown.
-/
namespace PocketCalculator

inductive RoundingPolicy where
  | everyStep
  | finalOnly
  deriving DecidableEq, Repr

structure Settings where
  policy : RoundingPolicy
  precision : Nat
  deriving DecidableEq, Repr

namespace Settings

/-- The most fraction digits that can be asked for. -/
def maxPrecision : Nat := 15

def default : Settings := ⟨.everyStep, 1⟩

/-- Settings with the precision asked for, or the greatest one. -/
def withPrecision (s : Settings) (precision : Nat) : Settings :=
  { s with precision := min precision maxPrecision }

theorem withPrecision_le (s : Settings) (precision : Nat) :
    (s.withPrecision precision).precision ≤ maxPrecision := Nat.min_le_right _ _

end Settings

/-- One binary operation without decimal rounding. Division by a zero of either sign is
refused beforehand, and a result has to be finite. -/
def Operator.apply (op : Operator) (a b : Binary64) : Except Fault Binary64 :=
  if op = .divide && b.isZero then .error .divisionByZero
  else
    let result := match op with
      | .add => a.add b
      | .subtract => a.sub b
      | .multiply => a.mul b
      | .divide => a.div b
    if result.isFinite then .ok result else .error .overflow

/-- One operation under the rounding policy. -/
def Settings.calculate (s : Settings) (op : Operator) (a b : Binary64) : Except Fault Binary64 :=
  match s.policy with
  | .everyStep =>
    (op.apply (a.roundHalfAway s.precision) (b.roundHalfAway s.precision)).map
      (·.roundHalfAway s.precision)
  | .finalOnly => op.apply a b

/-- The value of a tree. The left side is computed first, so its fault is the one reported. -/
def Settings.reduce (s : Settings) : Expression → Except Fault Binary64
  | .number value => .ok value
  | .negate operand => (s.reduce operand).map Binary64.neg
  | .binary op left right => do
    let a ← s.reduce left
    let b ← s.reduce right
    s.calculate op a b

/-- The rounded value of a typed expression. -/
def Settings.evaluateValue (s : Settings) (text : List Char) : Except Fault Binary64 := do
  let tree ← Expression.parse text
  let value ← s.reduce tree
  return value.roundHalfAway s.precision

/-- What is shown for a typed expression. -/
def Settings.evaluate (s : Settings) (text : List Char) : Except Fault (List Char) := do
  let value ← s.evaluateValue text
  return value.displayText s.precision

end PocketCalculator
