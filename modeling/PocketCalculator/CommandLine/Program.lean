import PocketCalculator.CommandLine.Parse
import PocketCalculator.Session

/-!
# The program

From arguments, environment and input to exit code and output, as one function. Standard
output and standard error are taken not to be terminals, so colours appear only if they are
asked for and the environment forces them. Log lines, which verbose flags or a variable of the
logging library add to standard error, are not part of what is modelled.
-/
namespace PocketCalculator.CommandLine

/-- The exit code, and the text written to standard output and to standard error, log lines
aside. -/
structure Outcome where
  exitCode : Nat
  out : List Char
  err : List Char
  deriving DecidableEq, Repr

def programName : List Char := "keval".toList

def programVersion : List Char := "0.2.0".toList

/-- The name under which a command tells its version. -/
def titleOf : Option CommandName → List Char
  | none => programName
  | some command => programName ++ '-' :: command.name

/-- Help and versions are results; everything else about the usage is an error. Of the texts that
the argument library makes up only the version is modelled. -/
def UsageError.outcome : UsageError → Outcome
  | .helpRequested => ⟨0, [], []⟩
  | .versionRequested command => ⟨0, titleOf command ++ ' ' :: programVersion ++ ['\n'], []⟩
  | _ => ⟨2, [], []⟩

/-- The variable that forces colours, with any value but zero. -/
def forcesColor (value : Option (List Char)) : Bool :=
  value.any (· != ['0'])

/-- Without a terminal only the choice of always having colours asks for them. -/
def Configuration.style (c : Configuration) (colorForced : Bool) : ReportStyle where
  format := c.format
  quiet := c.verbosity.isQuiet
  coloured := c.color == .always && colorForced

def unlines (lines : List (List Char)) : List Char :=
  lines.flatMap fun line => line ++ ['\n']

/-- The failure of a session is written last, and never in colour. -/
def outcomeOf (session : Session) : Outcome :=
  let out := unlines session.transcript.out
  match session.failure? with
  | none => ⟨0, out, unlines session.transcript.err⟩
  | some failure =>
    ⟨failure.exitCode, out, unlines (session.transcript.err ++ failure.lines)⟩

/-- The session of a command. Evaluation without expressions reads the input. -/
def session (c : Configuration) (colorForced : Bool) (input : List UInt8) : Command → Session
  | .eval [] => Session.evaluateLines c.settings (c.style colorForced) input
  | .eval expressions => Session.evaluate c.settings (c.style colorForced) expressions
  | .keys text => Session.replay c.settings (c.style colorForced) text

/-- Whether a command looks at the input. -/
def Command.readsInput : Command → Bool
  | .eval [] => true
  | _ => false

def run (env : Environment) (colorForced : Bool) (arguments : List (List Char))
    (input : List UInt8) : Outcome :=
  match parse env arguments with
  | .error e => e.outcome
  | .ok (configuration, command) => outcomeOf (session configuration colorForced input command)

end PocketCalculator.CommandLine
