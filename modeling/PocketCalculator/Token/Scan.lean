import PocketCalculator.Text.WhiteSpace
import PocketCalculator.Token.Basic

/-!
# Scanning a typed expression into tokens

One character is read at a time. White space ends a literal and is dropped. A minus sign is
a subtraction exactly when it follows a literal, and a multiplication is added where a value
is directly followed by an opening parenthesis, or a closing parenthesis by a digit.
-/
namespace PocketCalculator

/-- The tokens found so far and the literal being read, each with the newest part first. -/
structure Scanner where
  emitted : List Token
  pending : List Char
  deriving DecidableEq, Repr

namespace Scanner

def initial : Scanner := ⟨[], []⟩

def emit (s : Scanner) (token : Token) : Scanner :=
  { s with emitted := token :: s.emitted }

/-- Ends the literal being read. -/
def flush (s : Scanner) : Scanner :=
  if s.pending.isEmpty then s else ⟨.literal s.pending.reverse :: s.emitted, []⟩

/-- An operator after a finished literal. A minus sign elsewhere is a negation. -/
def emitOperator (s : Scanner) (op : Operator) : Scanner :=
  if op = .subtract && !s.emitted.head?.any Token.isLiteral then s.emit .negation
  else s.emit (.operator op)

/-- An opening parenthesis directly after a value multiplies it. -/
def emitOpen (s : Scanner) : Scanner :=
  if s.emitted.head?.any Token.endsValue then (s.emit (.operator .multiply)).emit .openParen
  else s.emit .openParen

/-- A digit that follows a closing parenthesis without a gap multiplies the group. -/
def emitClose (s : Scanner) (next : Option Char) : Scanner :=
  if next.any Char.isDigit then (s.emit .closeParen).emit (.operator .multiply)
  else s.emit .closeParen

/-- Reads one character, knowing the next one. -/
def step (s : Scanner) (c : Char) (next : Option Char) : Scanner :=
  if Text.isWhiteSpace c then s.flush
  else match Operator.ofGlyph? c with
    | some op => s.flush.emitOperator op
    | none =>
      if c = '(' then s.flush.emitOpen
      else if c = ')' then s.flush.emitClose next
      else { s with pending := c :: s.pending }

def run (s : Scanner) : List Char → Scanner
  | [] => s.flush
  | c :: rest => (s.step c rest.head?).run rest

end Scanner

/-- The tokens of a typed expression. -/
def Token.scan (text : List Char) : List Token :=
  (Scanner.initial.run text).emitted.reverse

end PocketCalculator
