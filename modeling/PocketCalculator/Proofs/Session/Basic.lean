import PocketCalculator.Session

/-!
# One session after another

Each expression adds its report and is counted in, and nothing else depends on it. So what a
session on several expressions writes and counts is what the sessions on each of them write and
count, one after the other.
-/
namespace PocketCalculator.Session

/-- Two sessions, the second after the first one, with the counts added. -/
def followedBy (a b : Session) : Session where
  transcript := ⟨a.transcript.out ++ b.transcript.out, a.transcript.err ++ b.transcript.err⟩
  result := do
    let m ← a.result
    let n ← b.result
    return ⟨m.total + n.total, m.failed + n.failed⟩

variable (s : Settings) (style : ReportStyle)

/-- What is reported of expressions one by one, in order. -/
def reports (expressions : List (List Char)) : Transcript where
  out := expressions.flatMap fun expression => (evaluateOne s style expression).1.out
  err := expressions.flatMap fun expression => (evaluateOne s style expression).1.err

/-- How many expressions do not pass. -/
def failures (expressions : List (List Char)) : Nat :=
  expressions.countP fun expression => !(evaluateOne s style expression).2

theorem evaluateFrom_cons (counts : Summary) (expression : List Char)
    (later : List (List Char)) :
    evaluateFrom s style counts (expression :: later) =
      after (evaluateOne s style expression).1
        (evaluateFrom s style (counts.record (evaluateOne s style expression).2) later) := rfl

theorem reports_cons (expression : List Char) (later : List (List Char)) :
    reports s style (expression :: later) =
      ⟨(evaluateOne s style expression).1.out ++ (reports s style later).out,
        (evaluateOne s style expression).1.err ++ (reports s style later).err⟩ := rfl

theorem failures_cons (expression : List Char) (later : List (List Char)) :
    failures s style (expression :: later) =
      failures s style later + if (evaluateOne s style expression).2 then 0 else 1 := by
  rw [failures, List.countP_cons, ← failures]
  cases (evaluateOne s style expression).2 <;> rfl

/-- Evaluation writes the reports on all expressions and adds their number and that of failures to
the counts. -/
theorem evaluateFrom_eq (counts : Summary) (expressions : List (List Char)) :
    evaluateFrom s style counts expressions =
      ⟨reports s style expressions, .ok ⟨counts.total + expressions.length,
        counts.failed + failures s style expressions⟩⟩ := by
  induction expressions generalizing counts with
  | nil => rfl
  | cons expression later ih =>
    rw [evaluateFrom_cons, ih, failures_cons, reports_cons]
    cases (evaluateOne s style expression).2
    · simp [after, Summary.record]
      omega
    · simp [after, Summary.record]
      omega

theorem evaluate_eq_reports (expressions : List (List Char)) :
    evaluate s style expressions =
      ⟨reports s style expressions, .ok ⟨expressions.length, failures s style expressions⟩⟩ := by
  rw [evaluate, evaluateFrom_eq]
  simp [Summary.zero]

theorem evaluate_append (expressions later : List (List Char)) :
    evaluate s style (expressions ++ later) =
      (evaluate s style expressions).followedBy (evaluate s style later) := by
  simp only [evaluate_eq_reports, reports, failures, followedBy, List.flatMap_append,
    List.length_append, List.countP_append]
  rfl

end PocketCalculator.Session
