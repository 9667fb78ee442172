import CtlTableau.Diagram.Formula
import CtlTableau.Engine.Expansion

/-!
# The engine that builds diagrams

It decides formulas directly, without clause forms, and draws no numbers; it decides clause forms
too. Every query has a table of its own.
-/

namespace CtlTableau.Engine

/-- Decides clause forms by diagrams. -/
def clausalDiagram : ClausalEngine QueryCount where
  solve form cancelled s := s.answering form.diagramVerdict cancelled

/-- Decides formulas by diagrams. -/
def diagram : Engine QueryCount where
  decide f tickets cancelled s := { s.answering f.diagramVerdict cancelled with tickets }

end CtlTableau.Engine
