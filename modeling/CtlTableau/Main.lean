import CtlTableau.CommandLine.Arguments
import CtlTableau.Solver.Host

/-!
# The program

Reads the arguments, the environment variable and the standard input, and writes what
`CommandLine.run` returns. The solvers are those of `Solver.Host`.
-/

open CtlTableau CommandLine

/-- The environment with the solvers of the host. -/
def hostEnvironment : Environment where
  start _ o := Solver.Host.start o.config o.timeout
  dirRefusal := Solver.Host.dirRefusal
  early _ := false

/-- Everything that a stream still holds. -/
partial def readToEnd (stream : IO.FS.Stream) (sofar : ByteArray) : IO ByteArray := do
  let chunk ← stream.read 65536
  if chunk.isEmpty then return sofar else readToEnd stream (sofar ++ chunk)

/-- Runs with more and more rounds, until all loops end. -/
partial def runToEnd (o : Options) (stdin : List UInt8) (rounds : Nat) : IO Execution :=
  match CommandLine.run hostEnvironment rounds o stdin with
  | some done => return done
  | none => runToEnd o stdin (2 * rounds)

/-- Runs the program; the input is read only if no formula is an argument. -/
def main (args : List String) : IO UInt32 := do
  match Arguments.options? (← IO.getEnv Solver.Config.variableName) args with
  | none => return 2
  | some o =>
    let stdin ← if o.formulas.isEmpty then readToEnd (← IO.getStdin) .empty else pure .empty
    let done ← runToEnd o stdin.toList 1000
    (← IO.getStdout).putStr done.stdout
    (← IO.getStderr).putStr done.stderr
    return done.exitCode.toUInt32
