import CtlTableau.Formula.Parser
import CtlTableau.Solver.External
import CtlTableau.Tableau.Refinement
import CtlTableau.Text.Property

/-!
# The command line

Checks formulas with a solver, one after another, and says of each what came of it. Formulas are given
by the options or, if they give none, are lines of the standard input. Everything is a function of the
options, the input and the environment, which says what starting a solver leads to and when a formula
is given up.

* `inputLines` finds the formulas in the input: lines, trimmed, without blank ones and comments. Lines
  are read up to the first one that is not UTF-8.
* `run` answers every formula; the exit code says whether one of them failed.

The loops of a check may have no end, with a solver that does not tell the truth. A run has a result
if all its loops end within the given number of rounds; what the result is does not depend on this
number.
-/

namespace CtlTableau.CommandLine

open Solver Text

/-! ## 1. Options -/

/-- What a run is asked for. -/
structure Options where
  formulas : List String := []
  solver : String
  solverArgs : List String := []
  pollInterval : Duration := .ofMillis 10
  dumpDir : Option String := none
  timeout : Option Duration := none
  /-- Only normalize the formulas. -/
  normalize : Bool := false
  deriving DecidableEq, Repr

namespace Options

/-- How the solver is run. -/
def config (o : Options) : Config := ⟨o.solver, o.solverArgs, o.pollInterval, o.dumpDir⟩

end Options

/-! ## 2. Formulas in the input -/

/-- The lines of a list of bytes. -/
def byteLines : List UInt8 → List (List UInt8)
  | [] => [[]]
  | b :: rest =>
    if b = 10 then [] :: byteLines rest
    else
      match byteLines rest with
      | line :: lines => (b :: line) :: lines
      | [] => [[b]]

/-- The texts of lines, up to the first one that is not UTF-8. -/
def readableLines : List (List UInt8) → List String
  | [] => []
  | line :: rest =>
    match String.fromUTF8? ⟨line.toArray⟩ with
    | some s => s :: readableLines rest
    | none => []

/-- A text without blanks at its ends. -/
def trim (s : String) : String :=
  String.ofList ((s.toList.dropWhile isBlank).reverse.dropWhile isBlank).reverse

/-- Whether a trimmed line holds a formula. -/
def isFormulaLine (line : String) : Bool := line != "" && line.toList.head? != some '#'

/-- The formulas of the input. -/
def inputLines (bytes : List UInt8) : List String :=
  ((readableLines (byteLines bytes)).map trim).filter isFormulaLine

/-! ## 3. Answers -/

/-- What came of a formula. -/
inductive Answer where
  | normalized (tableau : Tableau)
  | report (report : Report)
  | timeout
  | failed (cause : Fault)

namespace Answer

/-- Whether a formula failed. -/
def isFailed : Answer → Bool
  | .failed _ => true
  | _ => false

/-- What is said of a formula on the standard output. -/
def output (input : String) : Answer → String
  | .normalized T =>
    T.elementary.toList.foldl (fun s e => s ++ "  " ++ e.text ++ "\n")
      (input ++ ": " ++ T.normalized.text ++ "\n")
  | .report r => input ++ ": " ++ r.text ++ "\n"
  | .timeout => input ++ ": TIMEOUT\n"
  | .failed _ => ""

/-- What is said of a formula among the errors. -/
def error (input : String) : Answer → String
  | .failed cause => input ++ ": " ++ cause.message ++ "\n"
  | _ => ""

end Answer

/-- What came of a check that ended, if it did not run out of rounds. -/
def Answer.ofResult? : Except Tableau.Halt Report → Option Answer
  | .ok r => some (.report r)
  | .error (.fault .cancelled) => some .timeout
  | .error (.fault e) => some (.failed e)
  | .error .outOfRounds => none

/-- What a run has done so far. -/
structure Progress where
  /-- The formulas with what came of them. -/
  answers : List (String × Answer) := []
  /-- The directory for queries. -/
  dump : List (String × String) := []
  /-- The queries that were written, formula by formula. -/
  sent : List (List String) := []

/-- The circumstances of a run. -/
structure Environment where
  /-- What starting the solver on a query leads to, in the check of the formula with this number. -/
  start : Nat → Options → External → String → Except String (Started Course)
  /-- Why a directory for queries cannot be made, if so. -/
  dirRefusal : String → Option String
  /-- Whether the time for the formula with this number is over before its check asks a question. -/
  early : Nat → Bool

/-- The query that was written, if the record is about one. -/
def writtenQuery? : Record → Option String
  | .written text => some text
  | _ => none

/-- The queries among some records. -/
def queriesOf (log : Array Record) : List String := log.toList.filterMap writtenQuery?

/-- What the engine for the formula with this number works in. -/
def Environment.setting (env : Environment) (o : Options) (number : Nat) : Setting where
  config := o.config
  dirRefusal := env.dirRefusal
  start := env.start number o

/-- Checks a tableau, if all loops end within these rounds. -/
def check (env : Environment) (rounds : Nat) (o : Options) (p : Progress) (input : String)
    (T : Tableau) : Option Progress :=
  let number := p.answers.length
  let engine := (External.engine (env.setting o number)).toEngine
  let (result, s) := (T.checkWithin engine rounds).run.run
    { engine := { dump := p.dump }, cancelled := o.timeout.isSome && env.early number }
  (Answer.ofResult? result).map fun a =>
    { answers := p.answers ++ [(input, a)]
      dump := s.engine.dump
      sent := p.sent ++ [queriesOf s.log] }

/-- Adds what came of a formula that was not checked. -/
def Progress.add (p : Progress) (input : String) (a : Answer) : Progress :=
  { p with answers := p.answers ++ [(input, a)], sent := p.sent ++ [[]] }

/-- Answers a formula. -/
def answer (env : Environment) (rounds : Nat) (o : Options) (p : Progress) (input : String) :
    Option Progress :=
  match Formula.parse input with
  | .error e => some (p.add input (.failed (.parse e)))
  | .ok f =>
    match Tableau.ofFormula f with
    | .error e => some (p.add input (.failed e))
    | .ok T =>
      if o.normalize then some (p.add input (.normalized T)) else check env rounds o p input T

/-- Answers all formulas. -/
def answerAll (env : Environment) (rounds : Nat) (o : Options) (inputs : List String) :
    Option Progress :=
  inputs.foldlM (answer env rounds o) {}

/-! ## 4. The whole program -/

/-- What a run of the program leaves. -/
structure Execution where
  exitCode : Nat
  stdout : String
  stderr : String

/-- The result of a run that answered its formulas. -/
def Progress.execution (p : Progress) : Execution where
  exitCode := if p.answers.any fun (_, a) => a.isFailed then 1 else 0
  stdout := p.answers.foldl (fun s (input, a) => s ++ a.output input) ""
  stderr := p.answers.foldl (fun s (input, a) => s ++ a.error input) ""

/-- The formulas of a run. -/
def Options.inputs (o : Options) (stdin : List UInt8) : List String :=
  if o.formulas.isEmpty then inputLines stdin else o.formulas

/-- Runs the program, if all loops end within these rounds. -/
def run (env : Environment) (rounds : Nat) (o : Options) (stdin : List UInt8) : Option Execution :=
  (answerAll env rounds o (o.inputs stdin)).map Progress.execution

end CtlTableau.CommandLine
