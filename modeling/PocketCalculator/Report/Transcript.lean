import PocketCalculator.Report.Record

/-!
# Reports

The lines that are written about a record: results on the one side, failures on the other.
Results are left out of a quiet report, failures never. A report in JSON puts everything into
the result line of a record and has no failure lines.
-/
namespace PocketCalculator

inductive Format where
  | text
  | json
  deriving DecidableEq, Repr

structure ReportStyle where
  format : Format
  quiet : Bool
  coloured : Bool
  deriving DecidableEq, Repr

/-- Lines written to standard output and to standard error, each in order. -/
structure Transcript where
  out : List (List Char)
  err : List (List Char)
  deriving DecidableEq, Repr

namespace ReportStyle

/-- A text between terminal codes that switch a rendition on and all renditions off. -/
def paint (s : ReportStyle) (rendition text : List Char) : List Char :=
  if s.coloured then rendition ++ text ++ "\x1b[0m".toList else text

def redBold : List Char := "\x1b[31m\x1b[1m".toList

def dim : List Char := "\x1b[2m".toList

/-- Results, unless the report is quiet. -/
def results (s : ReportStyle) (lines : List (List Char)) : List (List Char) :=
  if s.quiet then [] else lines

def failureLine (s : ReportStyle) (subject reason : List Char) : List Char :=
  s.paint redBold "Error:".toList ++ ' ' :: subject ++ ": ".toList ++ reason

end ReportStyle

def EvaluationRecord.report (r : EvaluationRecord) (s : ReportStyle) : Transcript :=
  match s.format, r.outcome with
  | .json, _ => ⟨s.results [r.toJson.render], []⟩
  | .text, .ok text => ⟨s.results [text], []⟩
  | .text, .error fault => ⟨[], [s.failureLine r.expression fault.message]⟩

namespace KeysRecord

/-- The input and what the display shows, on a line each. -/
def display (r : KeysRecord) (s : ReportStyle) : List (List Char) :=
  [s.paint ReportStyle.dim "input:".toList ++ "  ".toList ++ r.keypad.input,
    s.paint ReportStyle.dim "output:".toList ++ ' ' :: r.keypad.output.text]

def report (r : KeysRecord) (s : ReportStyle) : Transcript :=
  match s.format with
  | .json => ⟨s.results [r.toJson.render], []⟩
  | .text =>
    ⟨s.results (r.display s),
      (r.fault?.map fun kind => s.failureLine r.keypad.input kind.name).toList⟩

end KeysRecord

end PocketCalculator
