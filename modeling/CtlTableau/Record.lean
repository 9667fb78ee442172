import CtlTableau.Formula.Printer
import CtlTableau.Report
import CtlTableau.Solver.Exit
import CtlTableau.Text.Quoted

/-!
# Records of a run

What a run notes down on its way, as data: a record is an event with what it is about. The wording
and the level of importance are decided here (`Record.message`, `Record.level`).
-/

namespace CtlTableau

open Text

/-- How important a record is, the least important first. -/
inductive Level where
  | trace | debug | info
  deriving DecidableEq, Repr

/-- The word for a level. -/
def Level.label : Level → String
  | .trace => "TRACE"
  | .debug => "DEBUG"
  | .info => "INFO"

/-- An event of a run. -/
inductive Record where
  /-- A text was split into tokens. -/
  | lexed (input : String) (tokens : List String)
  /-- An item before a closing bracket is about to be read. -/
  | bracketed (tokens : List String)
  /-- Items before a closing bracket are about to be read. -/
  | bracketedItems (tokens : List String)
  /-- Items with a separator are about to be read. -/
  | items (separator : String) (tokens : List String)
  /-- The positive elementary formulas of a formula were collected. -/
  | positives (formula : Formula) (found : List Formula)
  /-- A formula was normalized for the tableau. -/
  | normalized (formula result : Formula)
  /-- A prenex formula of this size became a clause form. -/
  | encoded (size numVars numClauses : Nat)
  /-- A clause form was written out. -/
  | written (qdimacs : String)
  /-- A round of refinement begins with a formula of this size for the states that are left. -/
  | iteration (number size : Nat)
  /-- A formula of this size is put to the engine. -/
  | query (number size : Nat)
  /-- The states that fulfil an "until" were found after some rounds. -/
  | converged (op : BinaryOp) (left right : Formula) (rounds : Nat)
  /-- A round of refinement changed nothing. -/
  | fixpoint (iterations : Nat)
  /-- A check came to its end. -/
  | decided (formula : Formula) (report : Report)
  /-- A solver was stopped. -/
  | interrupted (number : Nat)
  /-- A solver came to its end. -/
  | ended (number : Nat) (command : String) (exit : Solver.Exit)
  deriving DecidableEq, Repr

namespace Record

/-- How important an event is. -/
def level : Record → Level
  | .written _ => .trace
  | .iteration _ _ | .fixpoint _ | .decided _ _ => .info
  | _ => .debug

/-- An event in words. -/
def message : Record → String
  | .lexed input ts => s!"lexed {quoted input} into {quotedList ts}"
  | .bracketed ts => s!"parse_bracketed called on input {quotedList ts}"
  | .bracketedItems ts => s!"parse_bracketed_list called on input {quotedList ts}"
  | .items sep ts => s!"parse_list called on op_symbol {quoted sep}, input {quotedList ts}"
  | .positives f fs =>
    s!"{fs.length} positive elementary formulas for {f.text}: {Formula.texts fs}"
  | .normalized f g => s!"normalized {f.text} to {g.text}"
  | .encoded size vars clauses =>
    s!"quantified CNF of a formula of size {size}: {vars} variables, {clauses} clauses"
  | .written text => "QDIMACS:\n" ++ text
  | .iteration n size => s!"iteration {n}: state set formula of size {size}"
  | .query n size => s!"query {n} of size {size}"
  | .converged op p q rounds =>
    s!"{(Formula.binary op p q).text} fragment converged after {rounds} rounds"
  | .fixpoint n => s!"reached a fixpoint after {n} iterations, checking for a satisfying state"
  | .decided f report => s!"{f.text}: {report.text}"
  | .interrupted n => s!"query {n} cancelled"
  | .ended n command exit => s!"query {n}: {command} exited with {exit.text}"

/-- An event with its level. -/
def text (r : Record) : String := r.level.label ++ " " ++ r.message

end Record

end CtlTableau
