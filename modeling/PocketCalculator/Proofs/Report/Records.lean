import PocketCalculator.Proofs.Report.Decoding
import PocketCalculator.Session

/-!
# Records in JSON

A record reported in JSON is one line, from which a reader gets back what the record is of,
whatever characters that contains.
-/
namespace PocketCalculator

/-- One line, which is read as this value. -/
structure Json.IsLineOf (line : List Char) (value : Json) : Prop where
  isPrintable : Json.IsPrintable line
  decode_eq : Json.decode line = some value

theorem Json.isLineOf_render (value : Json) : IsLineOf value.render value :=
  ⟨isPrintable_render value, decode_render value⟩

/-- A record on keys has a member for an error if and only if the display shows one. -/
theorem KeysRecord.toJson_eq (r : KeysRecord) :
    r.toJson = .object ([("keys".toList, .string r.keys), ("input".toList, .string r.keypad.input),
        ("output".toList, .string r.keypad.output.text)] ++
      (match r.keypad.output with
        | .fault kind => [("error".toList, .string kind.name)]
        | _ => []) ++
      [("open_parens".toList, .number r.keypad.openGroups)]) := by
  unfold toJson fault?
  cases r.keypad.output <;> rfl

/-- The report on an evaluation is one line, which says what the expression is and either its
value or what is wrong with it; that on replayed keys says what they are and what the keypad is
like in the end, and what kind of error it shows if it shows one. -/
theorem records_are_faithful (s : Settings) (coloured : Bool) :
    (∀ expression : List Char,
      let record := EvaluationRecord.evaluate s expression
      let line := record.toJson.render
      record.report ⟨.json, false, coloured⟩ = ⟨[line], []⟩ ∧
        Json.IsLineOf line (.object [("expression".toList, .string expression),
          match s.evaluate expression with
          | .ok shown => ("value".toList, .string shown)
          | .error fault => ("error".toList, .object [("kind".toList, .string fault.kind.name),
              ("message".toList, .string fault.message)])])) ∧
    ∀ (keys : List Char) (keypad : Keypad), Keypad.replay s keys = .ok keypad →
      let line := (KeysRecord.mk keys keypad).toJson.render
      (Session.replay s ⟨.json, false, coloured⟩ keys).transcript = ⟨[line], []⟩ ∧
        Json.IsLineOf line (.object ([("keys".toList, .string keys),
            ("input".toList, .string keypad.input),
            ("output".toList, .string keypad.output.text)] ++
          (match keypad.output with
            | .fault kind => [("error".toList, .string kind.name)]
            | _ => []) ++
          [("open_parens".toList, .number keypad.openGroups)])) := by
  refine ⟨fun expression => ⟨rfl, ?_⟩, fun keys keypad hreplay => ⟨?_, ?_⟩⟩
  · exact Json.isLineOf_render (EvaluationRecord.evaluate s expression).toJson
  · rw [Session.replay, hreplay]
    rfl
  · rw [KeysRecord.toJson_eq]
    exact Json.isLineOf_render _

/-- An expression that is quoted in what is wrong with it, and keys with a tabulator among them. -/
theorem records_are_faithful_quote_and_tab :
    let expression := "2\"".toList
    let message := "Invalid number: unexpected character '\"' in '2\"'".toList
    let failure := ("\x7b\"expression\":\"2\\\"\",\"error\":\x7b\"kind\":\"NumberFormat\"," ++
      "\"message\":\"Invalid number: unexpected character '\\\"' in '2\\\"'\"\x7d\x7d").toList
    let keys := "1/\t0=".toList
    let keypad : Keypad := ⟨"1/0".toList, .fault .divisionByZero, 0⟩
    let line := ("\x7b\"keys\":\"1/\\t0=\",\"input\":\"1/0\",\"output\":\"Error\"," ++
      "\"error\":\"DivisionByZero\",\"open_parens\":0\x7d").toList
    ((EvaluationRecord.evaluate Settings.default expression).report ⟨.json, false, false⟩ =
        ⟨[failure], []⟩ ∧
      Json.IsLineOf failure (.object [("expression".toList, .string expression),
        ("error".toList, .object [("kind".toList, .string "NumberFormat".toList),
          ("message".toList, .string message)])])) ∧
    Keypad.replay Settings.default keys = .ok keypad ∧
      (Session.replay Settings.default ⟨.json, false, false⟩ keys).transcript = ⟨[line], []⟩ ∧
      Json.IsLineOf line (.object [("keys".toList, .string keys),
        ("input".toList, .string "1/0".toList), ("output".toList, .string "Error".toList),
        ("error".toList, .string "DivisionByZero".toList), ("open_parens".toList, .number 0)]) := by
  intro expression message failure keys keypad line
  obtain ⟨hevaluated, hreplayed⟩ := records_are_faithful Settings.default false
  constructor
  · have hfault : Settings.default.evaluate expression =
        .error (.unexpectedCharacter '"' expression) := by decide +kernel
    have hmessage : (Fault.unexpectedCharacter '"' expression).message = message := by
      decide +kernel
    have hfailure : (EvaluationRecord.evaluate Settings.default expression).toJson.render =
        failure := by decide +kernel
    have hfaithful := hevaluated expression
    simp only [hfault, hmessage, hfailure] at hfaithful
    exact hfaithful
  · have hreplay : Keypad.replay Settings.default keys = .ok keypad := by decide +kernel
    have hline : (KeysRecord.mk keys keypad).toJson.render = line := by decide +kernel
    have hfaithful := hreplayed keys keypad hreplay
    rw [hline] at hfaithful
    exact ⟨hreplay, hfaithful⟩

end PocketCalculator
