import PocketCalculator.Evaluation
import PocketCalculator.Keypad.Basic
import PocketCalculator.Report.Json

/-!
# Records

What is reported of one evaluated expression, and of one replayed sequence of keys.
-/
namespace PocketCalculator

structure EvaluationRecord where
  expression : List Char
  outcome : Except Fault (List Char)

namespace EvaluationRecord

def evaluate (s : Settings) (expression : List Char) : EvaluationRecord :=
  ⟨expression, s.evaluate expression⟩

def passed (r : EvaluationRecord) : Bool := r.outcome.isOk

/-- The expression as given, then its value or what is wrong with it. -/
def toJson (r : EvaluationRecord) : Json :=
  .object [("expression".toList, .string r.expression),
    match r.outcome with
    | .ok text => ("value".toList, .string text)
    | .error fault =>
      ("error".toList, .object [("kind".toList, .string fault.kind.name),
        ("message".toList, .string fault.message)])]

end EvaluationRecord

structure KeysRecord where
  keys : List Char
  keypad : Keypad

namespace KeysRecord

/-- The kind of fault the keypad shows. -/
def fault? (r : KeysRecord) : Option FaultKind :=
  match r.keypad.output with
  | .fault kind => some kind
  | _ => none

def passed (r : KeysRecord) : Bool := r.fault?.isNone

def toJson (r : KeysRecord) : Json :=
  .object <|
    [("keys".toList, .string r.keys), ("input".toList, .string r.keypad.input),
      ("output".toList, .string r.keypad.output.text)] ++
    (r.fault?.map fun kind => ("error".toList, Json.string kind.name)).toList ++
    [("open_parens".toList, .number r.keypad.openGroups)]

end KeysRecord

end PocketCalculator
