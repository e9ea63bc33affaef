import PocketCalculator.Evaluation
import PocketCalculator.Keypad.Key
import PocketCalculator.Keypad.Submission

/-!
# The keypad

What a key press makes of the typed text and the shown result. The rules keep the text close
to well-formed: only a minus sign begins a value, operators are never adjacent, an operand
has at most one point and no more fraction digits than are kept in rounding, and a closing
parenthesis needs an open one and a value before it. A key that breaks a rule changes
nothing. Typing after a result goes on from that result.

A keypad can also be restored with any text as its input. The operand being typed is then
taken to begin one byte after the last character that no operand has, which cannot be done
if that character is encoded in several bytes; such a press is an error of its own.
-/
namespace PocketCalculator

inductive Output where
  | nothing
  | value (text : List Char)
  | fault (kind : FaultKind)
  deriving DecidableEq, Repr

/-- What the display shows. -/
def Output.text : Output → List Char
  | nothing => []
  | value text => text
  | fault _ => "Error".toList

structure Keypad where
  input : List Char
  output : Output
  openGroups : Nat
  deriving DecidableEq, Repr

/-- The operand being typed would begin inside the encoding of this character. -/
structure InsideCharacter where
  char : Char
  deriving DecidableEq, Repr

namespace Keypad

def empty : Keypad := ⟨[], .nothing, 0⟩

/-- Digits and points at the end of the input. -/
def currentOperand (input : List Char) : Except InsideCharacter (List Char) :=
  let operand := (input.reverse.takeWhile isOperandChar).reverse
  match (input.reverse.dropWhile isOperandChar).head? with
  | some c => if c.utf8Size = 1 then .ok operand else .error ⟨c⟩
  | none => .ok operand

/-- Whether an operand has room for another digit: anywhere before the point, and up to the
precision after it. -/
def hasRoom (precision : Nat) (operand : List Char) : Bool :=
  !operand.contains '.' || (operand.dropWhile (· != '.')).length ≤ precision

/-- Whether the rules allow a typing key after the given input with groups left open. -/
def accepts (precision : Nat) (input : List Char) (openGroups : Nat) :
    Key → Except InsideCharacter Bool
  | .digit _ => return hasRoom precision (← currentOperand input)
  | .point =>
    if precision = 0 then .ok false
    else return !(← currentOperand input).contains '.'
  | .operator op =>
    .ok <| match input.getLast? with
      | none | some '(' => op = .subtract
      | some last => (Operator.ofGlyph? last).isNone
  | .openParen => .ok true
  | .closeParen => .ok (0 < openGroups && input.getLast?.any endsExpression)
  | .clear | .backspace | .equals => .ok false

/-- Types a key that has a character, continuing from a shown result. -/
def typeKey (s : Settings) (k : Keypad) (key : Key) : Except InsideCharacter Keypad :=
  match key.char? with
  | none => .ok k
  | some c => do
    let (input, openGroups) := match k.output with
      | .value text => (text, 0)
      | _ => (k.input, k.openGroups)
    if ← accepts s.precision input openGroups key then
      let openGroups := match key with
        | .openParen => openGroups + 1
        | .closeParen => openGroups - 1
        | _ => openGroups
      return ⟨input ++ [c], .nothing, openGroups⟩
    else return k

/-- Drops the last typed character; the shown output stays. -/
def erase (k : Keypad) : Keypad :=
  { k with
    input := k.input.dropLast
    openGroups := match k.input.getLast? with
      | some '(' => k.openGroups - 1
      | some ')' => k.openGroups + 1
      | _ => k.openGroups }

/-- Evaluates what the input submits, if anything. A value is shown without the zeros that
end its fraction. -/
def submit (s : Settings) (k : Keypad) : Keypad :=
  let submitted := submission k.input
  if submitted.isEmpty then k
  else
    { k with
      output := match s.evaluate submitted with
        | .ok text => .value (Decimal.trimFraction text)
        | .error fault => .fault fault.kind }

/-- The keypad after a key press. -/
def press (s : Settings) (k : Keypad) : Key → Except InsideCharacter Keypad
  | .clear => .ok empty
  | .backspace => .ok k.erase
  | .equals => .ok (k.submit s)
  | key => k.typeKey s key

def pressAll (s : Settings) (k : Keypad) (keys : List Key) : Except InsideCharacter Keypad :=
  keys.foldlM (press s) k

end Keypad

end PocketCalculator
