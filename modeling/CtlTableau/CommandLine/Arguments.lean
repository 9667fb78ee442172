import CtlTableau.CommandLine

/-!
# Arguments

A stand-in for the library that reads the arguments of a program. Options may be written `--name value`
or `--name=value`, and stand between the formulas; all arguments after `--` are formulas. There is one
value for each option but `--solver-arg`. What is not read so is refused, without a word.
-/

namespace CtlTableau.CommandLine.Arguments

/-- A number of milliseconds in 64 bits. -/
def readMillis? (s : String) : Option Nat :=
  let digits := match s.toList with
    | '+' :: rest => rest
    | cs => cs
  if digits ≠ [] ∧ digits.all Char.isDigit = true then
    let n := Duration.digitsValue digits
    if n < Nat.pow 2 64 then some n else none
  else none

/-- What is read so far: the options, and the names of those that were given. -/
structure Reading where
  options : Options
  given : List String := []

/-- Whether an argument is an option and no formula. -/
def isOption (arg : String) : Bool := arg.startsWith "-" && arg != "-"

/-- Splits an argument at its first equals sign. -/
def splitValue (arg : String) : String × Option String :=
  let name := arg.toList.takeWhile (· != '=')
  match arg.toList.drop name.length with
  | _ :: value => (String.ofList name, some (String.ofList value))
  | [] => (arg, none)

/-- Sets an option that takes a value. -/
def set? (o : Options) (name value : String) : Option Options :=
  match name with
  | "--solver" => some { o with solver := value }
  | "--solver-arg" => some { o with solverArgs := o.solverArgs ++ [value] }
  | "--dump-dir" => some { o with dumpDir := some value }
  | "--timeout" => (Duration.parse value).toOption.map fun d => { o with timeout := some d }
  | "--poll-ms" => (readMillis? value).map fun n => { o with pollInterval := .ofMillis n }
  | _ => none

/-- Sets an option that may be given once, but for `--solver-arg`. -/
def Reading.set? (r : Reading) (name value : String) : Option Reading :=
  if r.given.contains name then none
  else
    (Arguments.set? r.options name value).map fun options =>
      { options, given := if name = "--solver-arg" then r.given else name :: r.given }

/-- Reads arguments one after another. -/
def read? (r : Reading) : List String → Option Options
  | [] => some r.options
  | arg :: rest =>
    if arg = "--" then some { r.options with formulas := r.options.formulas ++ rest }
    else if !isOption arg then
      read? { r with options := { r.options with formulas := r.options.formulas ++ [arg] } } rest
    else if arg = "--normalize" then
      if r.options.normalize then none
      else read? { r with options := { r.options with normalize := true } } rest
    else
      match splitValue arg, rest with
      | (name, some value), rest => (r.set? name value).bind fun r => read? r rest
      | (_, none), [] => none
      | (name, none), value :: rest =>
        if isOption value && name != "--solver-arg" then none
        else (r.set? name value).bind fun r => read? r rest

/-- Reads the arguments; without an argument the environment may name the solver. -/
def options? (setting : Option String) (args : List String) : Option Options :=
  read? { options := { solver := (Solver.Config.ofSetting setting).command } } args

end CtlTableau.CommandLine.Arguments
