import CtlTableau.Closure
import CtlTableau.Engine
import CtlTableau.SymbolicState

/-!
# Tableaux and their runs

The tableau of a formula has as states all assignments to the positive elementary formulas of the
normalized formula. A run on it puts questions about sets of states to an engine, draws numbers for
the names of successor states, and can be called off or break on a fault; `Tableau.Run` is the monad
of such runs. What runs do is in `Tableau/Refinement`.
-/

namespace CtlTableau

/-- The tableau of a formula. -/
structure Tableau where
  normalized : Formula
  /-- What a state decides. -/
  elementary : OrderedSet Formula

namespace Tableau

/-- The tableau of a formula without quantifiers. -/
def ofFormula (f : Formula) : Except Fault Tableau :=
  match f.normalize.positiveClosure with
  | .error e => .error e
  | .ok elementary => .ok ⟨f.normalize, elementary⟩

/-- What making a tableau notes down. -/
def notes (f : Formula) (T : Tableau) : List Record :=
  [.positives T.normalized T.elementary.toList, .normalized f T.normalized]

/-! ## 1. Runs -/

/-- What a run carries along. -/
structure Session (σ : Type) where
  /-- The engine's state. -/
  engine : σ
  /-- The numbers that are left to draw. -/
  tickets : Tickets := .start
  /-- Whether the run was called off. -/
  cancelled : Bool := false
  /-- Questions put to the engine. -/
  queries : Nat := 0
  /-- How long the engine took. -/
  elapsed : Duration := .zero
  /-- The events so far. -/
  log : Array Record := #[]

/-- The session after a reply of the engine, which may call the run off; nobody takes this back. -/
def Session.heed {σ : Type} (s : Session σ) (reply : Reply σ) : Session σ where
  engine := reply.engine
  tickets := reply.tickets
  cancelled := s.cancelled || reply.cancelled
  queries := s.queries
  elapsed := s.elapsed.add reply.elapsed
  log := s.log ++ reply.log

/-- Why a run ended early. -/
inductive Halt where
  | fault (cause : Fault)
  /-- It was allowed no more rounds. -/
  | outOfRounds
  deriving DecidableEq, Repr

/-- A computation on a session that may end early; what it did until then stays done. -/
abbrev Run (σ : Type) := ExceptT Halt (StateM (Session σ))

namespace Run

variable {σ α : Type}

/-- Ends the run with a fault if there is one. -/
def attempt : Except Fault α → Run σ α
  | .ok a => pure a
  | .error e => throw (.fault e)

/-- Notes an event down. -/
def note (r : Record) : Run σ Unit := modify fun s => { s with log := s.log.push r }

/-- Ends the run if it was called off. -/
def proceed : Run σ Unit := do
  if (← get).cancelled then throw (.fault .cancelled)

/-- Draws a number. -/
def draw : Run σ Nat :=
  modifyGet fun s => (s.tickets.next, { s with tickets := ⟨s.tickets.next + 1⟩ })

/-- Counts a question. -/
def count : Run σ Unit := modify fun s => { s with queries := s.queries + 1 }

/-- Takes over a reply of the engine. -/
def receive (reply : Reply σ) : Run σ Bool := do
  modify fun s => s.heed reply
  attempt reply.answer

/-- Calls the engine. -/
def consult (engine : Engine σ) (f : Formula) : Run σ Bool := do
  let s ← get
  receive (engine.decide f s.tickets s.cancelled s.engine)

/-- Puts a question to the engine. The run may be called off between any two of the steps, and the
    flag is polled in the first one only. -/
def query (engine : Engine σ) (f : Formula) : Run σ Bool := do
  proceed
  count
  note (.query (← get).queries f.size)
  consult engine f

end Run

end Tableau

end CtlTableau
