import CtlTableau.Engine

/-!
# Scripted and observed engines

A scripted engine computes nothing: it goes through a list of cues, one for each query. An observed
engine does what another engine does, and keeps what it was asked. Both come for formulas and for
clause forms.
-/

namespace CtlTableau

/-- What a scripted engine does when it is asked. -/
inductive Cue where
  | answer (verdict : Bool)
  /-- Calls the run off, and answers false. -/
  | callOff
  /-- Fails with this text. -/
  | fail (text : String)
  deriving DecidableEq, Repr

namespace Cue

/-- The cue that a word stands for. -/
def ofWord : String → Cue
  | "sat" => .answer true
  | "unsat" => .answer false
  | "cancel" => .callOff
  | w => .fail w

/-- The cue after the last one. -/
def exhausted : Cue := .fail "script exhausted"

/-- Follows the first cue of a list. -/
def follow (cancelled : Bool) (cues : List Cue) : Outcome (List Cue) :=
  let engine := cues.tail
  match cues.headD exhausted with
  | .answer b => { answer := .ok b, engine, cancelled }
  | .callOff => { answer := .ok false, engine, cancelled := true }
  | .fail text => { answer := .error (.solver (.reported text)), engine, cancelled }

end Cue

/-- An engine's state, with what it was asked. -/
structure Observed (σ α : Type) where
  inner : σ
  asked : Array α := #[]

namespace Engine

/-- Goes through cues, for formulas. -/
def scripted : Engine (List Cue) where
  decide _ tickets cancelled cues := { Cue.follow cancelled cues with tickets }

/-- Goes through cues, for clause forms. -/
def clausalScripted : ClausalEngine (List Cue) where
  solve _ cancelled cues := Cue.follow cancelled cues

/-- The same engine, which keeps the formulas. -/
def observed {σ : Type} (engine : Engine σ) : Engine (Observed σ Formula) where
  decide f tickets cancelled s :=
    let reply := engine.decide f tickets cancelled s.inner
    { reply with engine := ⟨reply.engine, s.asked.push f⟩ }

end Engine

/-- The same engine, which keeps the clause forms. -/
def ClausalEngine.observed {σ : Type} (engine : ClausalEngine σ) :
    ClausalEngine (Observed σ ClauseForm) where
  solve form cancelled s :=
    let reply := engine.solve form cancelled s.inner
    { reply with engine := ⟨reply.engine, s.asked.push form⟩ }

end CtlTableau
