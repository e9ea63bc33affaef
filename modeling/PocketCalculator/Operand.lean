import PocketCalculator.Binary64.Basic
import PocketCalculator.Decimal.Shortest
import PocketCalculator.Fault

/-!
# Reading operands

An operand is a run of ASCII digits with at most one point and at least one digit. It is
read as the nearest binary64 number, which has to be finite.
-/
namespace PocketCalculator

def isOperandChar (c : Char) : Bool := c.isDigit || c == '.'

/-- The number a literal stands for. A character that no operand has is reported before a
wrong number of points or digits. -/
def readOperand (literal : List Char) : Except Fault Binary64 :=
  match literal.find? fun c => !isOperandChar c with
  | some c => .error (.unexpectedCharacter c literal)
  | none =>
    if !literal.any Char.isDigit || 1 < literal.count '.' then .error (.notANumber literal)
    else
      let value := (Decimal.ofDigits literal).toBinary64 false
      if value.isFinite then .ok value else .error (.outOfRange literal)

theorem isFinite_of_readOperand {literal : List Char} {x : Binary64}
    (h : readOperand literal = .ok x) : x.isFinite = true := by
  unfold readOperand at h
  split at h
  · simp at h
  · split at h
    · simp at h
    · dsimp only at h
      split at h
      · rename_i hfinite
        cases h
        exact hfinite
      · simp at h

end PocketCalculator
