import PocketCalculator.Token.Basic

/-!
# Faults

Why an expression has no value. Each cause carries what its message names; the five kinds
are what a caller tells apart.
-/
namespace PocketCalculator

inductive Fault where
  /-- A closing parenthesis without an open group, by its place in the token list. -/
  | unmatchedClose (index : Nat)
  /-- Groups still open at the end. -/
  | unclosedGroups (count : Nat)
  /-- The end is reached where the innermost group had to be closed. -/
  | unclosedGroup
  | emptyExpression
  /-- A value is directly followed by this token. -/
  | missingOperator (before : Token)
  | missingOperandAtEnd
  /-- This character stands where a value has to begin. -/
  | missingOperand (before : Char)
  | unexpectedCharacter (c : Char) (literal : List Char)
  /-- A literal without digits, or with several points. -/
  | notANumber (literal : List Char)
  /-- A literal that is nearest to no finite number. -/
  | outOfRange (literal : List Char)
  | divisionByZero
  | overflow
  | tooDeep (limit : Nat)
  deriving DecidableEq, Repr

inductive FaultKind where
  | malformedParentheses
  | numberFormat
  | divisionByZero
  | overflow
  | tooDeep
  deriving DecidableEq, Repr

def FaultKind.name : FaultKind → List Char
  | malformedParentheses => "MalformedParentheses".toList
  | numberFormat => "NumberFormat".toList
  | divisionByZero => "DivisionByZero".toList
  | overflow => "Overflow".toList
  | tooDeep => "TooDeep".toList

namespace Fault

def kind : Fault → FaultKind
  | unmatchedClose _ | unclosedGroups _ | unclosedGroup => .malformedParentheses
  | emptyExpression | missingOperator _ | missingOperandAtEnd | missingOperand _
  | unexpectedCharacter _ _ | notANumber _ | outOfRange _ => .numberFormat
  | divisionByZero => .divisionByZero
  | overflow => .overflow
  | tooDeep _ => .tooDeep

def quoted (text : List Char) : List Char := "'".toList ++ text ++ "'".toList

/-- What is wrong in particular, for the kinds that say so. -/
def detail : Fault → List Char
  | unmatchedClose index => "unmatched ')' at token ".toList ++ Nat.toDigits 10 index
  | unclosedGroups count => Nat.toDigits 10 count ++ " unclosed '('".toList
  | unclosedGroup => "unclosed '('".toList
  | emptyExpression => "empty expression".toList
  | missingOperator before => "missing operator before ".toList ++ quoted before.text
  | missingOperandAtEnd => "missing operand at end of expression".toList
  | missingOperand before => "missing operand before ".toList ++ quoted [before]
  | unexpectedCharacter c literal =>
    "unexpected character ".toList ++ quoted [c] ++ " in ".toList ++ quoted literal
  | notANumber literal => quoted literal
  | outOfRange literal => quoted literal ++ " is out of range".toList
  | divisionByZero | overflow => []
  | tooDeep limit => Nat.toDigits 10 limit

def message (fault : Fault) : List Char :=
  match fault.kind with
  | .malformedParentheses => "Malformed parentheses: ".toList ++ fault.detail
  | .numberFormat => "Invalid number: ".toList ++ fault.detail
  | .divisionByZero => "Division by zero".toList
  | .overflow => "Overflow: result exceeds maximum value".toList
  | .tooDeep => "Expression too deep: more than ".toList ++ fault.detail ++ " nested levels".toList

end Fault

end PocketCalculator
