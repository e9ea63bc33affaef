import PocketCalculator.Proofs.CommandLine.Evaluation
import PocketCalculator.Proofs.Session.Lines
import PocketCalculator.Proofs.Text.Unreadable

/-!
# Input that cannot be read

A line of the input that is no text ends the run. What came of the lines before it is written all
the same, but it is not summed up.
-/
namespace PocketCalculator

namespace Session

variable (s : Settings) (style : ReportStyle)

/-- A line that cannot be read ends the session; the lines before it make the same session as
without the rest of the input. -/
theorem evaluateLines_of_unreadable {input bad : List UInt8} {before after : List (List UInt8)}
    (hlines : input.splitOn Text.lineFeed = before ++ bad :: after)
    (hbefore : ∀ line ∈ before, Text.IsUtf8 line) (hbad : ¬Text.IsUtf8 bad) :
    evaluateLines s style input =
      { evaluateLines s style (Text.joinLines before) with result := .error .notUtf8 } := by
  obtain ⟨hreadable, hall⟩ := Text.lines_of_unreadable hlines hbefore hbad
  have hjoined := Text.all_isSome_lines (Text.isUtf8_of_mem_splitOn_joinLines hlines hbefore)
  rw [evaluateLines, evaluateLines, evaluateLinesFrom_eq, evaluateLinesFrom_eq, hreadable, hall,
    hjoined]
  rfl

theorem exists_result_of_readable {input : List UInt8}
    (h : ∀ line ∈ input.splitOn Text.lineFeed, Text.IsUtf8 line) :
    ∃ m, (evaluateLines s style input).result = .ok m := by
  rw [evaluateLines, evaluateLinesFrom_eq, Text.all_isSome_lines h, evaluateFrom_eq]
  exact ⟨_, rfl⟩

theorem transcript_evaluateLines (input : List UInt8) :
    (evaluateLines s style input).transcript =
      reports s style (Text.readable (Text.lines input)) := by
  rw [evaluateLines, evaluateLinesFrom_eq, evaluateFrom_eq]
  dsimp only
  split <;> rfl

theorem exists_failureLine_of_mem {input : List UInt8} {line : List Char}
    (h : line ∈ (evaluateLines s style input).transcript.err) :
    ∃ subject reason, line = style.failureLine subject reason := by
  rw [transcript_evaluateLines] at h
  obtain ⟨expression, -, hline⟩ := List.mem_flatMap.mp h
  dsimp only [evaluateOne, EvaluationRecord.report] at hline
  split at hline
  · cases hline
  · cases hline
  · exact ⟨_, _, List.mem_singleton.mp hline⟩

end Session

theorem Summary.colon_not_mem_message (m : Summary) : ':' ∉ m.message := by
  have hdigits : ∀ n, ':' ∉ Nat.toDigits 10 n := fun n hcolon =>
    absurd (Decimal.isDigit_of_mem_whole _ hcolon) (by decide)
  simp [message, hdigits]

/-- The failure of an expression never reads as the count of failures. -/
theorem ReportStyle.failureLine_ne_summary (style : ReportStyle) (subject reason : List Char)
    (m : Summary) : style.failureLine subject reason ≠ "Error: ".toList ++ m.message := by
  intro heq
  unfold failureLine paint at heq
  split at heq
  · cases heq
  · have hreason : ' ' :: subject ++ ": ".toList ++ reason = ' ' :: m.message :=
      (List.append_right_inj "Error:".toList).mp (by simpa using heq)
    have hcolon : ':' ∈ ' ' :: m.message := by
      rw [← hreason]
      simp
    exact m.colon_not_mem_message (by simpa using hcolon)

namespace CommandLine

/-- A line of the input that cannot be read ends the run with an error of its own. What is written,
log lines aside, about the lines before it is the same as if the input ended with them, but however
many of them failed, they are not counted. -/
theorem unreadable_lines_end_the_run {env : Environment} {arguments : List (List Char)}
    {c : Configuration} (hparse : parse env arguments = .ok (c, .eval [])) (colorForced : Bool)
    {input bad : List UInt8} {before after : List (List UInt8)}
    (hlines : input.splitOn Text.lineFeed = before ++ bad :: after)
    (hbefore : ∀ line ∈ before, Text.IsUtf8 line) (hbad : ¬Text.IsUtf8 bad) :
    let read := Text.joinLines before
    let reports := (session c colorForced read (.eval [])).transcript
    let errors := reports.err ++
      ["Error: ".toList ++ "I/O error: stream did not contain valid UTF-8".toList]
    (∃ m : Summary, (session c colorForced read (.eval [])).result = .ok m ∧
      run env colorForced arguments read =
        ⟨if m.failed = 0 then 0 else 1, unlines reports.out, unlines (reports.err ++
          if m.failed = 0 then [] else ["Error: ".toList ++ m.message])⟩) ∧
      run env colorForced arguments input = ⟨1, unlines reports.out, unlines errors⟩ ∧
      ∀ m : Summary, "Error: ".toList ++ m.message ∉ errors := by
  intro read reports errors
  have hsession : session c colorForced input (.eval []) =
      { session c colorForced read (.eval []) with result := .error .notUtf8 } :=
    Session.evaluateLines_of_unreadable c.settings (c.style colorForced) hlines hbefore hbad
  refine ⟨?_, ?_, ?_⟩
  · obtain ⟨m, hm⟩ := Session.exists_result_of_readable c.settings (c.style colorForced)
      (Text.isUtf8_of_mem_splitOn_joinLines hlines hbefore)
    exact ⟨m, hm, (run_of_parse hparse colorForced read).trans (outcomeOf_of_result hm)⟩
  · rw [run_of_parse hparse, hsession]
    rfl
  · intro m hmem
    rcases List.mem_append.mp hmem with hmem | hmem
    · obtain ⟨subject, reason, hline⟩ := Session.exists_failureLine_of_mem _ _ hmem
      exact ReportStyle.failureLine_ne_summary _ subject reason m hline.symm
    · have hmessage : m.message = "I/O error: stream did not contain valid UTF-8".toList :=
        List.append_cancel_left (List.mem_singleton.mp hmem)
      have hcolon := m.colon_not_mem_message
      rw [hmessage] at hcolon
      exact hcolon (by decide)

/-- An expression fails, and the third line begins with the encoding of a surrogate. -/
theorem unreadable_lines_end_the_run_surrogate :
    let env : Environment := ⟨none, none⟩
    let before := ["1/0".toList, "2.5".toList].map Text.encodeUtf8
    let bad := [0xED, 0xA0, 0x80, 0x31]
    let input := Text.joinLines before ++ bad ++ Text.lineFeed :: Text.encodeUtf8 "1+1".toList
    (∀ line ∈ before, Text.IsUtf8 line) ∧ ¬Text.IsUtf8 bad ∧
      run env false ["eval".toList] input = ⟨1, "2.5\n".toList,
        ("Error: 1/0: Division by zero\n" ++
          "Error: I/O error: stream did not contain valid UTF-8\n").toList⟩ := by
  intro env before bad input
  have hbefore : ∀ line ∈ before, Text.IsUtf8 line := by
    intro line hline
    obtain ⟨text, -, rfl⟩ := List.mem_map.mp hline
    exact ⟨text, rfl⟩
  have hbad : ¬Text.IsUtf8 bad := by
    rw [← Text.isSome_decodeUtf8]
    decide +kernel
  have hlines : input.splitOn Text.lineFeed = before ++ bad :: [Text.encodeUtf8 "1+1".toList] := by
    decide +kernel
  have hparse : parse env ["eval".toList] =
      .ok (⟨.normal, .auto, .text, false, Settings.default⟩, .eval []) := by decide +kernel
  obtain ⟨-, hrun, -⟩ := unreadable_lines_end_the_run hparse false hlines hbefore hbad
  exact ⟨hbefore, hbad, hrun.trans (by decide +kernel)⟩

end CommandLine

end PocketCalculator
