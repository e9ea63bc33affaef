import PocketCalculator.CommandLine.Program

/-!
# The command line program

Collects the arguments, the environment and, where the command asks for it, the input, and
writes what the program makes of them.
-/
namespace PocketCalculator.CommandLine

partial def readAll (stream : IO.FS.Stream) (bytes : ByteArray) : IO ByteArray := do
  let chunk ← stream.read 65536
  if chunk.isEmpty then return bytes else readAll stream (bytes ++ chunk)

def environmentValue (name : String) : IO (Option (List Char)) :=
  return (← IO.getEnv name).map String.toList

def execute (arguments : List String) : IO UInt32 := do
  let env : Environment :=
    ⟨← environmentValue "KEVAL_ROUNDING", ← environmentValue "KEVAL_PRECISION"⟩
  let colorForced := forcesColor (← environmentValue "CLICOLOR_FORCE")
  let texts := arguments.map String.toList
  let readsInput := match parse env texts with
    | .ok (_, command) => command.readsInput
    | .error _ => false
  let input ← if readsInput then readAll (← IO.getStdin) .empty else pure .empty
  let outcome := run env colorForced texts input.toList
  (← IO.getStdout).putStr (String.ofList outcome.out)
  (← IO.getStderr).putStr (String.ofList outcome.err)
  return outcome.exitCode.toUInt32

end PocketCalculator.CommandLine

def main (arguments : List String) : IO UInt32 :=
  PocketCalculator.CommandLine.execute arguments
