import PocketCalculator.CommandLine.Parse
import PocketCalculator.Keypad.Replay
import PocketCalculator.Report.Summary
import PocketCalculator.Report.Transcript
import PocketCalculator.Text.Lines

/-!
# Sessions

What a command does: it evaluates expressions, given one by one or read from the lines of the
input, or replays keys. A session writes its reports in order, counts the inputs that failed,
and ends with a failure if there were any or if the input could not be used.
-/
namespace PocketCalculator

/-- Why a session fails. -/
inductive Failure where
  | someFailed (summary : Summary)
  | unknownKey (c : Char)
  | notUtf8
  /-- A press broke the program off, which tells nothing of its own then. -/
  | insideCharacter (c : Char)
  deriving DecidableEq, Repr

namespace Failure

def message : Failure → List Char
  | someFailed summary => summary.message
  | unknownKey c => "Invalid argument: unknown key ".toList ++ Fault.quoted [c]
  | notUtf8 => "I/O error: stream did not contain valid UTF-8".toList
  | insideCharacter _ => []

/-- The lines in which a failure is told. -/
def lines : Failure → List (List Char)
  | insideCharacter _ => []
  | failure => ["Error: ".toList ++ failure.message]

def exitCode : Failure → Nat
  | insideCharacter _ => 101
  | _ => 1

end Failure

/-- A failure is that of a summary if the summary has one. -/
def Summary.failure? (s : Summary) : Option Failure :=
  if s.allPassed then none else some (.someFailed s)

/-- What a session wrote, and what came of it. -/
structure Session where
  transcript : Transcript
  result : Except Failure Summary

namespace Session

/-- A session that ends without writing anything. -/
def ended (result : Except Failure Summary) : Session := ⟨⟨[], []⟩, result⟩

/-- A session with a report written before everything else. -/
def after (report : Transcript) (later : Session) : Session :=
  ⟨⟨report.out ++ later.transcript.out, report.err ++ later.transcript.err⟩, later.result⟩

/-- What is reported of one expression, and whether it passed. -/
def evaluateOne (s : Settings) (style : ReportStyle) (expression : List Char) :
    Transcript × Bool :=
  let record := EvaluationRecord.evaluate s expression
  (record.report style, record.passed)

/-- Evaluates one expression after the other, reports each and counts it in. One that fails
does not keep the later ones from being evaluated. -/
def evaluateFrom (s : Settings) (style : ReportStyle) (counts : Summary) :
    List (List Char) → Session
  | [] => ended (.ok counts)
  | expression :: later =>
    let (report, passed) := evaluateOne s style expression
    after report (evaluateFrom s style (counts.record passed) later)

def evaluate (s : Settings) (style : ReportStyle) (expressions : List (List Char)) : Session :=
  evaluateFrom s style .zero expressions

/-- Evaluates one line after the other without the white space around it. Blank lines are
skipped and not counted, and a line that cannot be read ends the session. -/
def evaluateLinesFrom (s : Settings) (style : ReportStyle) (counts : Summary) :
    List (Option (List Char)) → Session
  | [] => ended (.ok counts)
  | none :: _ => ended (.error .notUtf8)
  | some line :: later =>
    let expression := Text.trim line
    if expression.isEmpty then evaluateLinesFrom s style counts later
    else
      let (report, passed) := evaluateOne s style expression
      after report (evaluateLinesFrom s style (counts.record passed) later)

/-- Evaluates the lines of the input. -/
def evaluateLines (s : Settings) (style : ReportStyle) (input : List UInt8) : Session :=
  evaluateLinesFrom s style .zero (Text.lines input)

/-- Replays keys. Nothing is reported if one of them is unknown. -/
def replay (s : Settings) (style : ReportStyle) (keys : List Char) : Session :=
  match Keypad.replay s keys with
  | .error (.unknownKey c) => ended (.error (.unknownKey c))
  | .error (.insideCharacter c) => ended (.error (.insideCharacter c))
  | .ok keypad =>
    let record : KeysRecord := ⟨keys, keypad⟩
    after (record.report style) (ended (.ok (Summary.zero.record record.passed)))

/-- The failure a session ends with. -/
def failure? (s : Session) : Option Failure :=
  match s.result with
  | .error failure => some failure
  | .ok summary => summary.failure?

end Session

end PocketCalculator
