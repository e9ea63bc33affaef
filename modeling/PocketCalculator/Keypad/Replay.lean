import PocketCalculator.Keypad.Basic

/-!
# Replaying keys

Pressing a written sequence of keys on an empty keypad. The whole sequence is read before the
first key is pressed.
-/
namespace PocketCalculator

/-- A failure to replay a written sequence of keys. -/
inductive ReplayFault where
  | unknownKey (c : Char)
  | insideCharacter (c : Char)
  deriving DecidableEq, Repr

/-- Presses every key of a written sequence on an empty keypad, or none of them if one is
unknown. -/
def Keypad.replay (s : Settings) (text : List Char) : Except ReplayFault Keypad :=
  match Key.readSequence text with
  | .error c => .error (.unknownKey c)
  | .ok keys => (empty.pressAll s keys).mapError fun fault => .insideCharacter fault.char

end PocketCalculator
