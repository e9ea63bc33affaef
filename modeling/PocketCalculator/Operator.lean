/-!
# Operators

The four operations of the calculator and the characters they are typed and shown with. A
typed operator may use other glyphs than the one it is shown with.
-/
namespace PocketCalculator

inductive Operator where
  | add
  | subtract
  | multiply
  | divide
  deriving DecidableEq, Repr

namespace Operator

/-- The character an operator is shown with. -/
def glyph : Operator → Char
  | add => '+'
  | subtract => '-'
  | multiply => 'X'
  | divide => '/'

/-- The operator a character stands for. -/
def ofGlyph? : Char → Option Operator
  | '+' => some add
  | '-' => some subtract
  | 'X' | 'x' | '*' | '×' => some multiply
  | '/' | '÷' => some divide
  | _ => none

/-- Operators of the higher precedence bind first. -/
def precedence : Operator → Nat
  | add | subtract => 1
  | multiply | divide => 2

theorem ofGlyph?_glyph (op : Operator) : ofGlyph? op.glyph = some op := by
  cases op <;> rfl

end Operator

end PocketCalculator
