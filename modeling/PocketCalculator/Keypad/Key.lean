import PocketCalculator.Operator
import PocketCalculator.Text.WhiteSpace

/-!
# Keys

The keys of the pad and the characters they are written with. A sequence of keys is written
without separators, white space between them meaning nothing.
-/
namespace PocketCalculator

inductive Key where
  | digit (value : Nat)
  | point
  | operator (op : Operator)
  | openParen
  | closeParen
  | clear
  | backspace
  | equals
  deriving DecidableEq, Repr

namespace Key

/-- The key a character is written for. -/
def ofChar? (c : Char) : Option Key :=
  match Operator.ofGlyph? c with
  | some op => some (operator op)
  | none =>
    if c.isDigit then some (digit (c.toNat - '0'.toNat))
    else match c with
      | '.' => some point
      | '(' => some openParen
      | ')' => some closeParen
      | 'C' | 'c' => some clear
      | 'B' | 'b' => some backspace
      | '=' => some equals
      | _ => none

/-- The character that a key types. There are ten digits; other keys that type nothing act
on the whole input. -/
def char? : Key → Option Char
  | digit value => if value < 10 then some (Nat.digitChar value) else none
  | point => some '.'
  | operator op => some op.glyph
  | openParen => some '('
  | closeParen => some ')'
  | clear | backspace | equals => none

/-- A typed character is read back as its key. -/
theorem ofChar?_of_char? {key : Key} {c : Char} (h : key.char? = some c) :
    ofChar? c = some key := by
  cases key with
  | digit value =>
    simp only [char?] at h
    split at h
    · rename_i hvalue
      cases h
      revert value
      decide
    · cases h
  | point => cases h; rfl
  | operator op => cases h; cases op <;> rfl
  | openParen => cases h; rfl
  | closeParen => cases h; rfl
  | clear => cases h
  | backspace => cases h
  | equals => cases h

/-- What is printed on the key. -/
def label : Key → List Char
  | clear => ['C']
  | backspace => ['⌫']
  | equals => ['=']
  | key => key.char?.toList

/-- The keys of a written sequence, or its first character that is neither a key nor white
space. -/
def readSequence (text : List Char) : Except Char (List Key) :=
  (text.filter fun c => !Text.isWhiteSpace c).mapM fun c =>
    match ofChar? c with
    | some key => .ok key
    | none => .error c

end Key

end PocketCalculator
