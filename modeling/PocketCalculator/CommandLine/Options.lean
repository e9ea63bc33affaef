import PocketCalculator.Evaluation
import PocketCalculator.Report.Transcript

/-!
# Options

The options of the command line, how they are spelled, and the values they take.
-/
namespace PocketCalculator.CommandLine

inductive Flag where
  | verbose
  | quiet
  | logJson
  | help
  | version
  deriving DecidableEq, Repr

/-- Options that take a value. -/
inductive Setting where
  | color
  | format
  | rounding
  | precision
  deriving DecidableEq, Repr

inductive ColorChoice where
  | auto
  | always
  | never
  deriving DecidableEq, Repr

inductive CommandName where
  | eval
  | keys
  deriving DecidableEq, Repr

def Flag.name : Flag → List Char
  | verbose => "verbose".toList
  | quiet => "quiet".toList
  | logJson => "log-json".toList
  | help => "help".toList
  | version => "version".toList

def Flag.all : List Flag := [verbose, quiet, logJson, help, version]

def Flag.ofName? (name : List Char) : Option Flag :=
  all.find? (·.name == name)

def Flag.ofLetter? : Char → Option Flag
  | 'v' => some verbose
  | 'q' => some quiet
  | 'h' => some help
  | 'V' => some version
  | _ => none

def Setting.name : Setting → List Char
  | color => "color".toList
  | format => "format".toList
  | rounding => "rounding".toList
  | precision => "precision".toList

def Setting.all : List Setting := [color, format, rounding, precision]

def Setting.ofName? (name : List Char) : Option Setting :=
  all.find? (·.name == name)

def CommandName.name : CommandName → List Char
  | eval => "eval".toList
  | keys => "keys".toList

def CommandName.ofName? (name : List Char) : Option CommandName :=
  [eval, keys].find? (·.name == name)

/-! ## Values -/

def colorOfName? (name : List Char) : Option ColorChoice :=
  [(ColorChoice.auto, "auto"), (.always, "always"), (.never, "never")].find?
    (·.2.toList == name) |>.map (·.1)

def formatOfName? (name : List Char) : Option Format :=
  [(Format.text, "text"), (.json, "json")].find? (·.2.toList == name) |>.map (·.1)

def policyOfName? (name : List Char) : Option RoundingPolicy :=
  [(RoundingPolicy.everyStep, "every-step"), (.finalOnly, "final-only")].find?
    (·.2.toList == name) |>.map (·.1)

/-- An integer of the allowed range. It may have a sign and leading zeros. -/
def precisionOfText? (text : List Char) : Option Nat :=
  let (negative, digits) := match text with
    | '+' :: digits => (false, digits)
    | '-' :: digits => (true, digits)
    | digits => (false, digits)
  let value := Nat.ofDigitChars 10 digits 0
  if digits.isEmpty || !digits.all Char.isDigit then none
  else if value ≤ Settings.maxPrecision && (!negative || value == 0) then some value
  else none

/-! ## Verbosity -/

inductive Verbosity where
  | quiet
  | normal
  | verbose
  | debug
  deriving DecidableEq, Repr

namespace Verbosity

/-- The verbosity for a number of verbose flags. A quiet flag outweighs any number. -/
def ofFlags (verbose : Nat) (quiet : Bool) : Verbosity :=
  if quiet then .quiet
  else match verbose with
    | 0 => .normal
    | 1 => .verbose
    | _ => .debug

def isQuiet (v : Verbosity) : Bool := v == quiet

def isVerbose (v : Verbosity) : Bool := v == verbose || v == debug

/-- The least severe log level that is written. -/
def logLevel : Verbosity → List Char
  | quiet => "error".toList
  | normal => "warn".toList
  | verbose => "debug".toList
  | debug => "trace".toList

end Verbosity

end PocketCalculator.CommandLine
