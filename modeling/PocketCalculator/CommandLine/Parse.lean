import PocketCalculator.CommandLine.Options

/-!
# Reading the command line

Options may stand before the command and after it; each side is read by the same rules and
may give an option once, the verbose flag excepted. What is given after the command outweighs
what is given before it, and both outweigh the environment, which is asked on each side for
the options not given there.

A value that stands in the argument after its option is looked at only when the next option
or positional argument begins, or the side ends. An error found before that wins.
-/
namespace PocketCalculator.CommandLine

/-- Why no command was understood. -/
inductive UsageError where
  | helpRequested
  | versionRequested (command : Option CommandName)
  /-- No value, or none of those an option can have. -/
  | invalidValue
  /-- A number that is none, or out of range. -/
  | invalidNumber
  /-- A flag with a value attached. -/
  | unexpectedValue
  | repeatedOption
  | unknownArgument
  | unknownCommand
  | missingKeys
  | missingCommand
  | nothingGiven
  deriving DecidableEq, Repr

/-- The variables that stand in for options. -/
structure Environment where
  rounding : Option (List Char)
  precision : Option (List Char)
  deriving DecidableEq, Repr

/-- The options given on one side of the command. -/
structure Given where
  verbose : Nat
  quiet : Bool
  logJson : Bool
  color : Option ColorChoice
  format : Option Format
  rounding : Option RoundingPolicy
  precision : Option Nat
  deriving DecidableEq, Repr

namespace Given

def nothing : Given := ⟨0, false, false, none, none, none, none⟩

def orInvalid {α : Type} (value : Option α) : Except UsageError α :=
  match value with
  | some a => .ok a
  | none => .error .invalidValue

/-- Gives an option a value. That it was given before is noticed first. -/
def set (g : Given) (setting : Setting) (text : List Char) : Except UsageError Given :=
  match setting with
  | .color =>
    if g.color.isSome then .error .repeatedOption
    else (orInvalid (colorOfName? text)).map fun value => { g with color := some value }
  | .format =>
    if g.format.isSome then .error .repeatedOption
    else (orInvalid (formatOfName? text)).map fun value => { g with format := some value }
  | .rounding =>
    if g.rounding.isSome then .error .repeatedOption
    else (orInvalid (policyOfName? text)).map fun value => { g with rounding := some value }
  | .precision =>
    if g.precision.isSome then .error .repeatedOption
    else match precisionOfText? text with
      | some value => .ok { g with precision := some value }
      | none => .error .invalidNumber

/-- The options of the side after the command, completed by those of the side before it. -/
def completedBy (after before : Given) : Given where
  verbose := if after.verbose = 0 then before.verbose else after.verbose
  quiet := after.quiet || before.quiet
  logJson := after.logJson || before.logJson
  color := after.color.or before.color
  format := after.format.or before.format
  rounding := after.rounding.or before.rounding
  precision := after.precision.or before.precision

/-- The environment's values for the options not given on this side have to be valid. -/
def checkEnvironment (g : Given) (env : Environment) : Except UsageError Unit := do
  if g.rounding.isNone then
    if let some text := env.rounding then
      let _ ← orInvalid (policyOfName? text)
  if g.precision.isNone then
    if let some text := env.precision then
      if (precisionOfText? text).isNone then throw .invalidNumber

end Given

/-- One side of the command while it is read: the options given, and an option whose value
stands in an argument of its own, once that is met. -/
structure Side where
  command : Option CommandName
  given : Given
  pending : Option (Setting × Option (List Char))
  deriving DecidableEq, Repr

/-- The kinds of argument that an option can be written as. -/
inductive Shape where
  /-- Two hyphens alone: no options follow. -/
  | escape
  | long (name : List Char) (value : Option (List Char))
  | short (letters : List Char)
  | plain
  deriving DecidableEq, Repr

def Shape.ofArgument : List Char → Shape
  | ['-', '-'] => .escape
  | '-' :: '-' :: text =>
    match text.dropWhile (· != '=') with
    | [] => .long text none
    | _ :: value => .long (text.takeWhile (· != '=')) (some value)
  | '-' :: letter :: letters => .short (letter :: letters)
  | _ => .plain

namespace Side

def start (command : Option CommandName) : Side := ⟨command, .nothing, none⟩

/-- Whether the last option still needs its value. -/
def awaitsValue (s : Side) : Bool :=
  match s.pending with
  | some (_, none) => true
  | _ => false

/-- Takes an argument as the value of the last option. -/
def supply (s : Side) (text : List Char) : Side :=
  { s with pending := s.pending.map fun p => (p.1, some text) }

/-- Looks at the value that is still to be looked at. -/
def settle (s : Side) : Except UsageError Side :=
  match s.pending with
  | none => .ok s
  | some (_, none) => .error .invalidValue
  | some (setting, some text) =>
    (s.given.set setting text).map fun given => { s with given := given, pending := none }

def raise (s : Side) (flag : Flag) : Except UsageError Side := do
  let s ← s.settle
  match flag with
  | .verbose => return { s with given.verbose := s.given.verbose + 1 }
  | .quiet =>
    if s.given.quiet then throw .repeatedOption
    return { s with given.quiet := true }
  | .logJson =>
    if s.given.logJson then throw .repeatedOption
    return { s with given.logJson := true }
  | .help => throw .helpRequested
  | .version => throw (.versionRequested s.command)

/-- An option with its value attached, or still to come. -/
def assign (s : Side) (setting : Setting) (value : Option (List Char)) :
    Except UsageError Side := do
  let s ← s.settle
  match value with
  | some text => return { s with given := ← s.given.set setting text }
  | none => return { s with pending := some (setting, none) }

/-- Reads an argument as options. Without a result it is none: a value or a positional
argument. Where a positional argument may begin with a hyphen, so it is if any part of it is
unknown as an option; elsewhere that is an error. -/
def readOption (s : Side) (hyphenAllowed : Bool) (argument : List Char) :
    Except UsageError (Option Side) :=
  let unknown : Except UsageError (Option Side) :=
    if hyphenAllowed then .ok none else .error .unknownArgument
  match Shape.ofArgument argument with
  | .escape | .plain => .ok none
  | .long name value =>
    match Flag.ofName? name, value with
    | some _, some _ => .error .unexpectedValue
    | some flag, none => (s.raise flag).map some
    | none, _ =>
      match Setting.ofName? name with
      | some setting => (s.assign setting value).map some
      | none => unknown
  | .short letters =>
    if hyphenAllowed && letters.any fun c => (Flag.ofLetter? c).isNone then .ok none
    else do
      let s ← letters.foldlM
        (fun s c => match Flag.ofLetter? c with
          | some flag => s.raise flag
          | none => .error .unknownArgument) s
      return some s

/-- The options of a side that has ended. -/
def finish (s : Side) (env : Environment) : Except UsageError Given := do
  let s ← s.settle
  s.given.checkEnvironment env
  return s.given

end Side

/-- What to do, with the texts to do it to. -/
inductive Command where
  | eval (expressions : List (List Char))
  | keys (text : List Char)
  deriving DecidableEq, Repr

/-- Reads the arguments after the command name of an evaluation. From the first expression
on, every argument is one. -/
def readExpressions (s : Side) : List (List Char) → Except UsageError (Side × List (List Char))
  | [] => .ok (s, [])
  | argument :: rest =>
    if Shape.ofArgument argument = .escape then .ok (s, rest)
    else do
      match ← s.readOption true argument with
      | some s => readExpressions s rest
      | none =>
        if s.awaitsValue then readExpressions (s.supply argument) rest
        else return (s, argument :: rest)

/-- Reads the arguments after the command name of a replay: one text of keys, and options on
both of its sides. -/
def readKeys (s : Side) (keys : Option (List Char)) :
    List (List Char) → Except UsageError (Side × Option (List Char))
  | [] => .ok (s, keys)
  | argument :: rest =>
    if Shape.ofArgument argument = .escape then
      match keys, rest with
      | _, [] => .ok (s, keys)
      | none, [text] => .ok (s, some text)
      | none, _ :: _ :: _ => do
        let _ ← s.settle
        .error .unknownArgument
      | some _, _ :: _ => .error .unknownArgument
    else do
      match ← s.readOption keys.isNone argument with
      | some s => readKeys s keys rest
      | none =>
        if s.awaitsValue then readKeys (s.supply argument) keys rest
        else if keys.isSome then throw .unknownArgument
        else readKeys (← s.settle) (some argument) rest

/-- The side after a command, and the command. -/
def readCommand (env : Environment) (name : CommandName) (arguments : List (List Char)) :
    Except UsageError (Given × Command) :=
  let s := Side.start (some name)
  match name with
  | .eval => do
    let (s, expressions) ← readExpressions s arguments
    return (← s.finish env, .eval expressions)
  | .keys => do
    let (s, keys) ← readKeys s none arguments
    let given ← s.finish env
    match keys with
    | some text => return (given, .keys text)
    | none => throw .missingKeys

def helpName : List Char := "help".toList

/-- Help on a command, on help itself, or on the program. -/
def readHelp : List (List Char) → UsageError
  | [] => .helpRequested
  | [name] =>
    if name == helpName || (CommandName.ofName? name).isSome then .helpRequested
    else .unknownCommand
  | _ => .unknownCommand

/-- The end of the arguments without a command. -/
def missing (s : Side) (env : Environment) : UsageError :=
  match s.finish env with
  | .error e => e
  | .ok given =>
    if given = .nothing && env.rounding.isNone && env.precision.isNone then .nothingGiven
    else .missingCommand

/-- Reads the side before the command, and then the command. The side after the command is
examined completely before the last value before it. -/
def readArguments (env : Environment) (s : Side) :
    List (List Char) → Except UsageError (Given × Command)
  | [] => .error (missing s env)
  | argument :: rest =>
    if !s.awaitsValue && argument == helpName then .error (readHelp rest)
    else match if s.awaitsValue then none else CommandName.ofName? argument with
      | some name => do
        let (after, command) ← readCommand env name rest
        let before ← s.finish env
        return (after.completedBy before, command)
      | none =>
        if Shape.ofArgument argument = .escape then
          match rest with
          | [] => .error (missing s env)
          | name :: _ =>
            if name == helpName || (CommandName.ofName? name).isSome then .error .unknownArgument
            else .error .unknownCommand
        else do
          match ← s.readOption false argument with
          | some s => readArguments env s rest
          | none =>
            if s.awaitsValue then readArguments env (s.supply argument) rest
            else throw .unknownCommand

/-- Everything that the options decide. -/
structure Configuration where
  verbosity : Verbosity
  color : ColorChoice
  format : Format
  logJson : Bool
  settings : Settings
  deriving DecidableEq, Repr

/-- The environment and then the defaults fill in what is not given. -/
def Configuration.ofGiven (env : Environment) (g : Given) : Configuration where
  verbosity := .ofFlags g.verbose g.quiet
  color := g.color.getD .auto
  format := g.format.getD .text
  logJson := g.logJson
  settings :=
    let policy := (g.rounding.or (env.rounding.bind policyOfName?)).getD Settings.default.policy
    let precision :=
      (g.precision.or (env.precision.bind precisionOfText?)).getD Settings.default.precision
    Settings.withPrecision ⟨policy, 0⟩ precision

/-- A command with its configuration. -/
def parse (env : Environment) (arguments : List (List Char)) :
    Except UsageError (Configuration × Command) := do
  let (given, command) ← readArguments env (.start none) arguments
  return (.ofGiven env given, command)

end PocketCalculator.CommandLine
