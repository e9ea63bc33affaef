import PocketCalculator.Binary64.Basic
import PocketCalculator.Fault
import PocketCalculator.Operator

/-!
# Expression trees

The tree that an expression denotes. Groups leave no trace in it but their shape, and a run
of negations at most one node. `Branch` is a tree that knows its height and stays within
`maxHeight`; it can only be built by the functions below, which refuse to go higher.
-/
namespace PocketCalculator

inductive Expression where
  | number (value : Binary64)
  | negate (operand : Expression)
  | binary (op : Operator) (left right : Expression)
  deriving DecidableEq, Repr

namespace Expression

/-- A number has height one. -/
def height : Expression → Nat
  | number _ => 1
  | negate operand => operand.height + 1
  | binary _ left right => max left.height right.height + 1

/-- How many operations on two values the tree has. -/
def operationCount : Expression → Nat
  | number _ => 0
  | negate operand => operand.operationCount
  | binary _ left right => left.operationCount + right.operationCount + 1

/-- The greatest height of a tree. -/
def maxHeight : Nat := 1024

end Expression

/-- A tree of bounded height, with that height at hand. -/
structure Branch where
  tree : Expression
  height : Nat
  height_eq : height = tree.height
  height_le : height ≤ Expression.maxHeight

namespace Branch

open Expression

def number (value : Binary64) : Branch :=
  ⟨.number value, 1, rfl, by decide⟩

def negate (b : Branch) : Except Fault Branch :=
  if h : b.height + 1 ≤ maxHeight then
    .ok ⟨.negate b.tree, b.height + 1, by simp [Expression.height, b.height_eq], h⟩
  else .error (.tooDeep maxHeight)

def join (op : Operator) (left right : Branch) : Except Fault Branch :=
  if h : max left.height right.height + 1 ≤ maxHeight then
    .ok ⟨.binary op left.tree right.tree, max left.height right.height + 1,
      by simp [Expression.height, left.height_eq, right.height_eq], h⟩
  else .error (.tooDeep maxHeight)

end Branch

end PocketCalculator
