import CtlTableau.Clausal.Expansion
import CtlTableau.Engine

/-!
# The engine that expands clause forms

It decides every clause form by expansion and counts the queries that it decided.
-/

namespace CtlTableau

/-- The state of an engine that only counts its queries. -/
structure QueryCount where
  queries : Nat := 0
  deriving DecidableEq, Repr

/-- Counts a query and decides it by the given procedure, unless the run was called off. -/
def QueryCount.answering (decision : Except Fault Bool) (cancelled : Bool) (s : QueryCount) :
    Outcome QueryCount :=
  if cancelled then { answer := .error .cancelled, engine := s, cancelled }
  else { answer := decision, engine := ⟨s.queries + 1⟩, cancelled }

namespace Engine

/-- Decides clause forms by expansion. -/
def expansion : ClausalEngine QueryCount where
  solve form cancelled s := s.answering (.ok form.expansion) cancelled

end Engine

end CtlTableau
