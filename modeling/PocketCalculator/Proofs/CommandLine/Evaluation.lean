import PocketCalculator.CommandLine.Program
import PocketCalculator.Proofs.Evaluation.Plain
import PocketCalculator.Proofs.Report.Decoding
import PocketCalculator.Proofs.Session.Basic

/-!
# Evaluating from the command line

Every expression is reported in its turn, whatever comes of the others, and the exit code tells
whether one of them failed.
-/
namespace PocketCalculator

namespace Settings

variable (s : Settings)

def fails (expression : List Char) : Bool := !(s.evaluate expression).isOk

/-- The lines of results: the values there are, or a record of every expression. -/
def resultLines (format : Format) (expressions : List (List Char)) : List (List Char) :=
  match format with
  | .text => expressions.filterMap fun expression => (s.evaluate expression).toOption
  | .json => expressions.map fun expression =>
    (EvaluationRecord.evaluate s expression).toJson.render

def failureLine? (expression : List Char) : Option (List Char) :=
  match s.evaluate expression with
  | .ok _ => none
  | .error fault => some ("Error: ".toList ++ expression ++ ": ".toList ++ fault.message)

/-- The lines of failures: what is wrong with each expression that fails, unless records say so. -/
def failureLines (format : Format) (expressions : List (List Char)) : List (List Char) :=
  match format with
  | .text => expressions.filterMap s.failureLine?
  | .json => []

theorem resultLines_cons (format : Format) (expression : List Char) (later : List (List Char)) :
    s.resultLines format (expression :: later) =
      s.resultLines format [expression] ++ s.resultLines format later := by
  rw [← List.singleton_append]
  cases format
  · exact List.filterMap_append
  · exact List.map_append

theorem failureLines_cons (format : Format) (expression : List Char) (later : List (List Char)) :
    s.failureLines format (expression :: later) =
      s.failureLines format [expression] ++ s.failureLines format later := by
  rw [← List.singleton_append]
  cases format
  · exact List.filterMap_append
  · rfl

variable {s}

theorem lineFeed_not_mem_of_evaluate {expression shown : List Char}
    (h : s.evaluate expression = .ok shown) : '\n' ∉ shown := by
  obtain ⟨negative, rank, hfits, rfl⟩ := exists_fitsIn_of_evaluate h
  intro hmem
  rcases (Binary64.isPlainText_fixedText hfits).eq_minus_or_isOperandChar hmem with h | h <;>
    cases h

theorem lineFeed_not_mem_render (value : Json) : '\n' ∉ value.render :=
  fun hmem => absurd (Json.isPrintable_render value '\n' hmem) (by decide)

theorem lineFeed_not_mem_resultLines {format : Format} {expressions : List (List Char)} :
    ∀ line ∈ s.resultLines format expressions, '\n' ∉ line := by
  intro line hline
  cases format with
  | text =>
    obtain ⟨expression, -, hvalue⟩ := List.mem_filterMap.mp hline
    cases hevaluate : s.evaluate expression with
    | error fault =>
      rw [hevaluate] at hvalue
      cases hvalue
    | ok shown =>
      rw [hevaluate] at hvalue
      cases hvalue
      exact lineFeed_not_mem_of_evaluate hevaluate
  | json =>
    obtain ⟨expression, -, rfl⟩ := List.mem_map.mp hline
    exact lineFeed_not_mem_render _

end Settings

theorem ReportStyle.results_nil (style : ReportStyle) : style.results [] = [] := by
  unfold results
  split <;> rfl

theorem ReportStyle.results_append (style : ReportStyle) (a b : List (List Char)) :
    style.results (a ++ b) = style.results a ++ style.results b := by
  unfold results
  split <;> rfl

theorem ReportStyle.failureLine_of_plain {style : ReportStyle} (h : style.coloured = false)
    (subject reason : List Char) :
    style.failureLine subject reason =
      "Error: ".toList ++ subject ++ ": ".toList ++ reason := by
  simp [failureLine, paint, h]

theorem EvaluationRecord.report_evaluate (s : Settings) {style : ReportStyle}
    (hplain : style.coloured = false) (expression : List Char) :
    (evaluate s expression).report style =
      ⟨style.results (s.resultLines style.format [expression]),
        s.failureLines style.format [expression]⟩ := by
  unfold report Settings.resultLines Settings.failureLines
  cases style.format with
  | json => rfl
  | text =>
    cases h : s.evaluate expression with
    | ok shown => simp [evaluate, h, Settings.failureLine?, Except.toOption]
    | error fault =>
      simp [evaluate, h, Settings.failureLine?, Except.toOption, style.results_nil,
        ReportStyle.failureLine_of_plain hplain]

namespace Session

variable (s : Settings) {style : ReportStyle}

theorem reports_eq (hplain : style.coloured = false) (expressions : List (List Char)) :
    reports s style expressions =
      ⟨style.results (s.resultLines style.format expressions),
        s.failureLines style.format expressions⟩ := by
  induction expressions with
  | nil => obtain ⟨_ | _, _ | _, _⟩ := style <;> rfl
  | cons expression later ih =>
    have hone : (evaluateOne s style expression).1 =
        ⟨style.results (s.resultLines style.format [expression]),
          s.failureLines style.format [expression]⟩ :=
      EvaluationRecord.report_evaluate s hplain expression
    rw [reports_cons, hone, ih, s.resultLines_cons style.format expression later,
      s.failureLines_cons style.format expression later, style.results_append]

theorem evaluate_eq (hplain : style.coloured = false) (expressions : List (List Char)) :
    evaluate s style expressions =
      ⟨⟨style.results (s.resultLines style.format expressions),
        s.failureLines style.format expressions⟩,
        .ok ⟨expressions.length, expressions.countP s.fails⟩⟩ := by
  rw [evaluate_eq_reports, reports_eq s hplain]
  rfl

end Session

namespace CommandLine

theorem run_of_parse {env : Environment} {arguments : List (List Char)} {c : Configuration}
    {command : Command} (hparse : parse env arguments = .ok (c, command)) (colorForced : Bool)
    (input : List UInt8) :
    run env colorForced arguments input = outcomeOf (session c colorForced input command) := by
  rw [run, hparse]

/-- A session that is not broken off fails if one of its inputs did. -/
theorem outcomeOf_of_result {session : Session} {m : Summary} (h : session.result = .ok m) :
    outcomeOf session = ⟨if m.failed = 0 then 0 else 1, unlines session.transcript.out,
      unlines (session.transcript.err ++
        if m.failed = 0 then [] else ["Error: ".toList ++ m.message])⟩ := by
  simp only [outcomeOf, Session.failure?, h, Summary.failure?, Summary.allPassed, beq_iff_eq]
  split_ifs with hfailed
  · simp only [List.append_nil]
  · rfl

/-- Evaluation from the command line counts the expressions and those that fail, and the exit
code is zero if none does. It writes the results in order, one on each line, unless it is quiet;
to standard error it writes, log lines aside, the failures in order and last the counts if there
are failures. -/
theorem evaluations_are_reported {env : Environment} {arguments : List (List Char)}
    {c : Configuration} {expressions : List (List Char)}
    (hparse : parse env arguments = .ok (c, .eval expressions)) (hne : expressions ≠ [])
    (input : List UInt8) :
    let failed := expressions.countP c.settings.fails
    let out := if c.verbosity.isQuiet then [] else c.settings.resultLines c.format expressions
    let err := c.settings.failureLines c.format expressions ++
      if failed = 0 then []
      else ["Error: ".toList ++ Nat.toDigits 10 failed ++ " of ".toList ++
        Nat.toDigits 10 expressions.length ++ " failed".toList]
    (session c false input (.eval expressions)).result = .ok ⟨expressions.length, failed⟩ ∧
      run env false arguments input = ⟨if failed = 0 then 0 else 1, unlines out, unlines err⟩ ∧
      ∀ line ∈ out, '\n' ∉ line := by
  intro failed out err
  have hsession : session c false input (.eval expressions) =
      Session.evaluate c.settings (c.style false) expressions := by
    obtain ⟨expression, later, rfl⟩ := List.exists_cons_of_ne_nil hne
    rfl
  have hplain : (c.style false).coloured = false := Bool.and_false _
  have hevaluate := Session.evaluate_eq c.settings hplain expressions
  rw [← hsession] at hevaluate
  refine ⟨congrArg Session.result hevaluate, ?_, ?_⟩
  · rw [run, hparse]
    refine (outcomeOf_of_result (congrArg Session.result hevaluate)).trans ?_
    rw [hevaluate]
    rfl
  · intro line hline
    change line ∈ (if c.verbosity.isQuiet then [] else _) at hline
    split at hline
    · cases hline
    · exact Settings.lineFeed_not_mem_resultLines line hline

/-- A failure and then a value, in text and as records. -/
theorem evaluations_are_reported_failure_first :
    let env : Environment := ⟨none, none⟩
    let expressions := ["1/0".toList, "1+1".toList]
    let c : Configuration := ⟨.normal, .always, .text, false, Settings.default⟩
    let arguments := "--color=always".toList :: "eval".toList :: expressions
    let records := "--format=json".toList :: "eval".toList :: expressions
    parse env arguments = .ok (c, .eval expressions) ∧
      run env false arguments [] = ⟨1, "2.0\n".toList,
        "Error: 1/0: Division by zero\nError: 1 of 2 failed\n".toList⟩ ∧
      parse env records = .ok ({ c with color := .auto, format := .json }, .eval expressions) ∧
      run env false records [] = ⟨1, ("\x7b\"expression\":\"1/0\",\"error\":" ++
          "\x7b\"kind\":\"DivisionByZero\",\"message\":\"Division by zero\"\x7d\x7d\n" ++
          "\x7b\"expression\":\"1+1\",\"value\":\"2.0\"\x7d\n").toList,
        "Error: 1 of 2 failed\n".toList⟩ := by
  intro env expressions c arguments records
  have htext : parse env arguments = .ok (c, .eval expressions) := by decide +kernel
  have hjson : parse env records =
      .ok ({ c with color := .auto, format := .json }, .eval expressions) := by decide +kernel
  obtain ⟨-, hlines, -⟩ := evaluations_are_reported htext (by decide) []
  obtain ⟨-, hrecords, -⟩ := evaluations_are_reported hjson (by decide) []
  exact ⟨htext, hlines.trans (by decide +kernel), hjson, hrecords.trans (by decide +kernel)⟩

end CommandLine

end PocketCalculator
