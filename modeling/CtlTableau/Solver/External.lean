import CtlTableau.Clausal.Qdimacs
import CtlTableau.Engine
import CtlTableau.Solver.Config
import CtlTableau.Solver.Course

/-!
# The engine that runs a solver

Every query is written to a file, a solver is started on it and watched, and its exit code is the
verdict. Queries are numbered; if they are to be kept, the query with number `n` goes to the file
`query-<n>.qdimacs` of the directory for them, whatever was there before.

What the solver does, how long this takes and when somebody calls the run off is up to the
circumstances that the engine works in (`Setting`).
-/

namespace CtlTableau.Solver

/-- The state of an engine that runs a solver. -/
structure External where
  /-- The queries so far, called off ones not counted. -/
  queries : Nat := 0
  /-- The files in the directory for queries: names and texts, the latest first. -/
  dump : List (String × String) := []
  /-- How long the queries took. -/
  clock : Duration := .zero
  deriving DecidableEq, Repr

/-- What becomes of a query for which the command was started. -/
structure Started (α : Type) where
  /-- What becomes of the child. -/
  child : α
  /-- How long the query takes. -/
  elapsed : Duration
  /-- Whether the run is called off by the end of the query, if the looks at the child did not find
      it called off. -/
  calledOff : Bool

/-- The circumstances that an engine works in. -/
structure Setting where
  config : Config
  /-- Why a directory for queries cannot be made, if so. -/
  dirRefusal : String → Option String
  /-- What starting the command on a query leads to, or why it cannot be started. -/
  start : External → String → Except String (Started Course)

namespace External

/-- The file that keeps a query. -/
def dumpName (number : Nat) : String := s!"query-{number}.qdimacs"

/-- Writes a file into the directory for queries, in place of one of the same name. -/
def keep (s : External) (name text : String) : External :=
  { s with dump := (name, text) :: s.dump.filter (·.1 != name) }

/-- Counts a query. -/
def count (s : External) : External := { s with queries := s.queries + 1 }

/-- Keeps the query that was counted last, if queries are to be kept. -/
def file (config : Config) (text : String) (s : External) : External :=
  if config.dumpDir.isSome then s.keep (dumpName s.queries) text else s

/-- What the end of a watch means. -/
def verdict (command : String) : Option Exit → Except Fault Bool
  | none => .error .cancelled
  | some exit =>
    match exit.verdict?, exit with
    | some b, _ => .ok b
    | none, .code n => .error (.solver (.exited command n))
    | none, .signal _ => .error (.solver (.killed command))

/-- The record of the end of a watch. -/
def watchRecord (number : Nat) (command : String) : Option Exit → Record
  | none => .interrupted number
  | some exit => .ended number command exit

/-- What is told of a child that was watched to the end of the watch. -/
def conclude (setting : Setting) (started : Started Watched) (s : External) (log : List Record) :
    Outcome External :=
  let command := setting.config.command
  let exit? := started.child.exit?
  { answer := verdict command exit?
    engine := { s with clock := s.clock.add started.elapsed }
    cancelled := exit?.isNone || started.calledOff
    elapsed := started.elapsed
    log := log ++ [watchRecord s.queries command exit?] }

/-- What a call of a solver leads to. -/
structure Called where
  outcome : Outcome External
  /-- What was done to the child, if one was started. -/
  actions : List Action := []

/-- Decides a clause form by a solver. Starting the command and watching the child is up to `start`,
    which gives the reason why the command cannot be started or what came of the watch. -/
def attend {m : Type → Type} [Monad m] (setting : Setting)
    (start : External → m (Except String (Started Watched))) (form : ClauseForm) (cancelled : Bool)
    (s : External) : m Called :=
  if cancelled then pure { outcome := { answer := .error .cancelled, engine := s, cancelled } }
  else
    let s := s.count
    let text := form.qdimacs
    let log := [Record.written text]
    let failing (e : Fault) (s : External) : Called :=
      { outcome := { answer := .error e, engine := s, cancelled, log } }
    match setting.config.dumpDir.bind setting.dirRefusal with
    | some reason => pure (failing (.system reason) s)
    | none => do
      let s := s.file setting.config text
      match ← start s with
      | .error reason => pure (failing (.solver (.notStarted setting.config.command reason)) s)
      | .ok started =>
        pure { outcome := conclude setting started s log, actions := started.child.actions }

/-- What comes of the watch of a child that takes its course. -/
def watched (started : Started Course) : Started Watched :=
  { started with child := started.child.watch }

/-- Decides a clause form by the command of the circumstances. -/
def solve (setting : Setting) (form : ClauseForm) (cancelled : Bool) (s : External) :
    Outcome External :=
  let start s := (setting.start s form.qdimacs).map watched
  (attend (m := Id) setting start form cancelled s).outcome

/-- The engine for clause forms that runs a solver. -/
def engine (setting : Setting) : ClausalEngine External := ⟨solve setting⟩

end External

end CtlTableau.Solver
