import CtlTableau.Clausal.Encoder
import CtlTableau.NormalForm.Negation
import CtlTableau.NormalForm.Prenex
import CtlTableau.Record

/-!
# Engines

An engine decides closed quantified boolean formulas. It has a state of its own, may draw numbers
for the names that it invents, and may find that its run was called off. An engine for clause forms
becomes one for formulas by way of negation normal form, prenex form and clause form
(`ClausalEngine.toEngine`).
-/

namespace CtlTableau

/-- What an engine for clause forms answers. -/
structure Outcome (σ : Type) where
  /-- The truth of the query. -/
  answer : Except Fault Bool
  /-- The engine's state after it. -/
  engine : σ
  /-- Whether the run was called off, before or while the engine worked. -/
  cancelled : Bool
  /-- How long the engine took. -/
  elapsed : Duration := .zero
  log : List Record := []

/-- What an engine for formulas answers. -/
structure Reply (σ : Type) extends Outcome σ where
  /-- The numbers that are left to draw. -/
  tickets : Tickets

/-- An engine for formulas, with states in `σ`. -/
structure Engine (σ : Type) where
  /-- Decides a formula; the flag says whether the run was called off before. -/
  decide : Formula → Tickets → Bool → σ → Reply σ

/-- An engine for clause forms, with states in `σ`. -/
structure ClausalEngine (σ : Type) where
  /-- Decides a clause form; the flag says whether the run was called off before. -/
  solve : ClauseForm → Bool → σ → Outcome σ

/-- Decides a formula by way of its clause form. -/
def ClausalEngine.decide {σ : Type} (engine : ClausalEngine σ) (f : Formula) (t : Tickets)
    (cancelled : Bool) (s : σ) : Reply σ :=
  match f.nnf.prenex t with
  | (.error e, t') => { answer := .error e, engine := s, cancelled, tickets := t' }
  | (.ok g, t') =>
    match g.toClauseForm with
    | .error e => { answer := .error e, engine := s, cancelled, tickets := t' }
    | .ok form =>
      let reply := engine.solve form cancelled s
      { reply with
        tickets := t'
        log := .encoded g.size form.numVars form.clauses.size :: reply.log }

/-- The engine for formulas that an engine for clause forms makes. -/
def ClausalEngine.toEngine {σ : Type} (engine : ClausalEngine σ) : Engine σ := ⟨engine.decide⟩

end CtlTableau
