import PocketCalculator.Proofs.Session.Basic
import PocketCalculator.Proofs.Text.Lines

/-!
# Sessions on the lines of a text

Line by line, a session on the input goes through the same steps as one on the expressions that
stand on its lines, until a line cannot be read. So a text is evaluated as the list of its lines,
and what comes of one line does not depend on where the line stands.
-/
namespace PocketCalculator.Session

variable (s : Settings) (style : ReportStyle)

/-! ## Steps -/

variable {line : List Char} {counts : Summary} {later : List (Option (List Char))}

theorem evaluateLinesFrom_blank (h : Text.trim line = []) :
    evaluateLinesFrom s style counts (some line :: later) =
      evaluateLinesFrom s style counts later := by
  rw [evaluateLinesFrom]
  simp [h]

theorem evaluateLinesFrom_some (h : Text.trim line ≠ []) :
    evaluateLinesFrom s style counts (some line :: later) =
      after (evaluateOne s style (Text.trim line)).1
        (evaluateLinesFrom s style (counts.record (evaluateOne s style (Text.trim line)).2)
          later) := by
  rw [evaluateLinesFrom]
  simp [h]

/-! ## Runs -/

/-- Whatever was counted before, lines are evaluated as the expressions on those that can be read
before one that cannot. Only the result tells whether there is such a line. -/
theorem evaluateLinesFrom_eq (counts : Summary) (lines : List (Option (List Char))) :
    evaluateLinesFrom s style counts lines =
      let session := evaluateFrom s style counts (Text.readable lines)
      if lines.all Option.isSome then session
      else { session with result := .error .notUtf8 } := by
  induction lines generalizing counts with
  | nil => rfl
  | cons first later ih =>
    cases first with
    | none => rfl
    | some line =>
      by_cases hblank : Text.trim line = []
      · rw [evaluateLinesFrom_blank s style hblank, ih, Text.readable_some, if_pos hblank]
        rfl
      · rw [evaluateLinesFrom_some s style hblank, ih, Text.readable_some, if_neg hblank]
        dsimp only
        rw [evaluateFrom_cons, List.all_cons, Option.isSome_some, Bool.true_and]
        split <;> rfl

theorem evaluateLines_encodeUtf8 (text : List Char) :
    evaluateLines s style (Text.encodeUtf8 text) = evaluate s style (Text.expressions text) := by
  obtain ⟨hreadable, hall⟩ := Text.lines_encodeUtf8 text
  rw [evaluateLines, evaluateLinesFrom_eq, hreadable, if_pos hall, evaluate]

/-- Each line of a text counts as an expression, without the white space around it; blank lines
do not count. So the text before a line feed and the text after it are evaluated one after the
other, and nothing depends on a line feed at the end. -/
theorem lines_are_expressions (text : List Char) :
    evaluateLines s style (Text.encodeUtf8 text) = evaluate s style (Text.expressions text) ∧
      (∀ later : List Char, evaluateLines s style (Text.encodeUtf8 (text ++ '\n' :: later)) =
        (evaluateLines s style (Text.encodeUtf8 text)).followedBy
          (evaluateLines s style (Text.encodeUtf8 later))) ∧
      evaluateLines s style (Text.encodeUtf8 (text ++ ['\n'])) =
        evaluateLines s style (Text.encodeUtf8 text) := by
  refine ⟨evaluateLines_encodeUtf8 s style text, fun later => ?_, ?_⟩
  · simp only [evaluateLines_encodeUtf8, Text.expressions_append, evaluate_append]
  · simp only [evaluateLines_encodeUtf8, Text.expressions_append, Text.expressions_nil,
      List.append_nil]

end PocketCalculator.Session
