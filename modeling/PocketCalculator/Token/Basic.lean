import PocketCalculator.Operator

/-!
# Tokens

What a typed expression consists of. A minus sign before an operand is a token of its own,
`negation`, since it is not the subtraction of two values. A literal is any run of
characters without other meaning; whether it is a number is decided when it is read.
-/
namespace PocketCalculator

inductive Token where
  | literal (text : List Char)
  | operator (op : Operator)
  | negation
  | openParen
  | closeParen
  deriving DecidableEq, Repr

namespace Token

/-- The text of a token, in which negation is told apart from subtraction. -/
def text : Token → List Char
  | literal text => text
  | operator op => [op.glyph]
  | negation => ['~']
  | openParen => ['(']
  | closeParen => [')']

def isLiteral : Token → Bool
  | literal _ => true
  | _ => false

/-- Literals and closing parentheses end a value. -/
def endsValue : Token → Bool
  | literal _ | closeParen => true
  | _ => false

end Token

end PocketCalculator
