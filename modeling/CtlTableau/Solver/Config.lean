import CtlTableau.Number.Duration

/-!
# How a solver is run

The command, what is passed to it before the query file, how often to look after it, and where to
keep the queries. The environment may name the command.
-/

namespace CtlTableau.Solver

/-- How a solver is run. -/
structure Config where
  command : String
  /-- Arguments before the query file. -/
  args : List String := []
  /-- The time between two looks at a running solver. -/
  pollInterval : Duration := .ofMillis 10
  /-- Where the queries are kept, if anywhere. -/
  dumpDir : Option String := none
  deriving DecidableEq, Repr

namespace Config

/-- The environment variable that names the command. -/
def variableName : String := "CTLSAT_SOLVER"

/-- The command if nothing names one. -/
def defaultCommand : String := "solver"

/-- The configuration for the value of the environment variable, if it is set. -/
def ofSetting (setting : Option String) : Config := { command := setting.getD defaultCommand }

/-- The configuration that the environment asks for, if it names a command. -/
def ofSetting? (setting : Option String) : Option Config :=
  match setting with
  | none => none
  | some command => if command = "" then none else some { command }

/-- The configuration for a command. -/
def ofCommand (command : String) : Config := { command }

end Config

end CtlTableau.Solver
