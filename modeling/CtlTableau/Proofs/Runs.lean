import CtlTableau.Proofs.Boolean
import CtlTableau.Tableau.Refinement

/-!
# Runs with engines that tell the truth

A run ends with a result, or early. `Leads sure m s P` says that the run `m` from the session `s` can
end with no other results than those with the property `P`, and that it does end with a result if
`sure` holds and it was not called off. On the way numbers are drawn and never put back.

`sure` stands for what a run needs in order not to end early: an engine that answers every query, and
enough rounds. Where it is false, `Leads` speaks of the results alone.

Main statements: `leads_bind`, by which runs are taken apart; `run_query`, what a session takes over
from the engine that it asks; and `Extends`, by which more rounds change no result that was there.
-/

namespace CtlTableau

/-! ## 1. Engines -/

namespace Engine

variable {σ : Type} (engine : Engine σ)

/-- The engine answers with the truth, if it answers at all, and only draws numbers. This is asked of
    it for closed formulas that hold no prime and do not bind the constant, which are all that runs
    put to it, as long as nobody calls the run off.

    `draws` is the contract of the counter, which is a growing source of fresh numbers that only the
    start of a check sets back: who shares it may take numbers, and puts none back. A run relies on
    this, since renaming avoids no capture: a number drawn twice would let the variables of one
    successor catch those of another. -/
structure Sound : Prop where
  truthful : ∀ f t s b, f.IsQuery → Formula.trueName ∉ f.boundNames →
    (engine.decide f t false s).answer = .ok b → b = f.isValid
  draws : ∀ f t s, f.IsQuery → Formula.trueName ∉ f.boundNames →
    t.next ≤ (engine.decide f t false s).tickets.next

/-- The engine answers every such query with the truth, and does not call the run off itself. -/
structure Complete : Prop extends engine.Sound where
  answers : ∀ f t s, f.IsQuery → Formula.trueName ∉ f.boundNames →
    ∃ b, (engine.decide f t false s).answer = .ok b
  persists : ∀ f t s, f.IsQuery → Formula.trueName ∉ f.boundNames →
    (engine.decide f t false s).cancelled = false

/-- The engine that knows the truth. -/
def oracle : Engine Unit where
  decide f tickets cancelled s := { answer := .ok f.isValid, engine := s, cancelled, tickets }

theorem complete_oracle : oracle.Complete where
  truthful _ _ _ _ _ _ h := (Except.ok.inj h).symm
  draws _ _ _ _ _ := Nat.le_refl _
  answers f _ _ _ _ := ⟨f.isValid, rfl⟩
  persists _ _ _ _ _ := rfl

end Engine

/-! An engine that is made of an engine for clause forms draws numbers for the names that its prenex
forms need, and does nothing else to the counter. -/

namespace Formula

theorem le_renameApart (x : String) (body other : Formula) (t : Tickets) :
    t.next ≤ (renameApart x body other t).2.2.next := by
  unfold renameApart
  split
  · exact Nat.le_succ _
  · exact Nat.le_refl _

theorem le_pullQuantifiers (op : BinaryOp) (f g : Formula) (t : Tickets) :
    t.next ≤ (pullQuantifiers op f g t).2.next := by
  fun_induction pullQuantifiers op f g t with
  | case1 t k x p k' y q h r t' e ih => rwa [e] at ih
  | case2 t k x p k' y q h renamed r t' e ih =>
    rw [e] at ih
    exact Nat.le_trans (le_renameApart ..) ih
  | case3 t k x p g hg renamed r t' e ih =>
    rw [e] at ih
    exact Nat.le_trans (le_renameApart ..) ih
  | case4 t f k y q hf renamed r t' e ih =>
    rw [e] at ih
    exact Nat.le_trans (le_renameApart ..) ih
  | case5 => exact Nat.le_refl _

theorem le_prenex (f : Formula) (t : Tickets) : t.next ≤ (f.prenex t).2.next := by
  induction f generalizing t with
  | atom x => exact Nat.le_refl _
  | unary op p _ =>
    unfold prenex
    split <;> exact Nat.le_refl _
  | binary op p q ihp ihq =>
    have h1 := ihp t
    unfold prenex
    split
    · split
      · next e => rwa [e] at h1
      · next p' t' e =>
        rw [e] at h1
        have h2 := ihq t'
        split
        · next e' =>
          rw [e'] at h2
          exact Nat.le_trans h1 h2
        · next q' t'' e' =>
          rw [e'] at h2
          exact Nat.le_trans (Nat.le_trans h1 h2) (le_pullQuantifiers ..)
    · exact Nat.le_refl _
  | quant k x p ih =>
    have h := ih t
    unfold prenex
    split <;> next e => rwa [e] at h

end Formula

theorem ClausalEngine.le_decide {σ : Type} (engine : ClausalEngine σ) (f : Formula) (t : Tickets)
    (c : Bool) (s : σ) : t.next ≤ (engine.toEngine.decide f t c s).tickets.next := by
  have h := f.nnf.le_prenex t
  show t.next ≤ (engine.decide f t c s).tickets.next
  unfold ClausalEngine.decide
  split
  · next e => rwa [e] at h
  · next e =>
    rw [e] at h
    split
    · exact h
    · exact h

namespace Tableau.Run

variable {σ α β : Type}

/-! ## 2. What runs lead to -/

/-- The session can come after the other one: no number was put back, and if `sure` holds the run was
    not called off in between. -/
structure Later (sure : Prop) (s s' : Session σ) : Prop where
  tickets : s.tickets.next ≤ s'.tickets.next
  uncancelled : sure → s.cancelled = false → s'.cancelled = false

/-- The run has no other results than those with the property; it has one if `sure` holds and it was
    not called off. -/
structure Leads (sure : Prop) (m : Run σ α) (s : Session σ) (P : α → Session σ → Prop) : Prop where
  ok : ∀ a s', m.run.run s = (.ok a, s') → Later sure s s' ∧ P a s'
  error : ∀ h s', m.run.run s = (.error h, s') → sure → s.cancelled = true

variable {sure : Prop} {m : Run σ α} {f : α → Run σ β} {s s' s'' : Session σ}
  {P P' : α → Session σ → Prop} {Q : β → Session σ → Prop}

theorem Later.refl (s : Session σ) : Later sure s s := ⟨Nat.le_refl _, fun _ h => h⟩

theorem Later.trans (h : Later sure s s') (h' : Later sure s' s'') : Later sure s s'' :=
  ⟨Nat.le_trans h.tickets h'.tickets, fun hs hc => h'.uncancelled hs (h.uncancelled hs hc)⟩

/-- A run that is to end with a result does. -/
theorem Leads.exists_ok (h : Leads sure m s P) (hs : sure) (hc : s.cancelled = false) :
    ∃ a s', m.run.run s = (.ok a, s') ∧ Later sure s s' ∧ P a s' := by
  rcases hrun : (m.run.run s : Except Halt α × Session σ) with ⟨e | a, s'⟩
  · rw [h.error e s' hrun hs] at hc
    cases hc
  · exact ⟨a, s', rfl, h.ok a s' hrun⟩

theorem Leads.mono (h : Leads sure m s P)
    (hP : ∀ a s', Later sure s s' → P a s' → P' a s') : Leads sure m s P' where
  ok a s' hrun := ⟨(h.ok a s' hrun).1, hP a s' (h.ok a s' hrun).1 (h.ok a s' hrun).2⟩
  error := h.error

/-- The result with the run that it comes from. -/
theorem Leads.with_run (h : Leads sure m s P) :
    Leads sure m s fun a s' => m.run.run s = (.ok a, s') ∧ P a s' where
  ok a s' hrun := ⟨(h.ok a s' hrun).1, hrun, (h.ok a s' hrun).2⟩
  error := h.error

theorem leads_pure {a : α} (h : P a s) : Leads sure (pure a) s P where
  ok b s' hrun := by
    cases hrun
    exact ⟨.refl s, h⟩
  error e s' hrun := by cases hrun

theorem leads_throw {e : Halt} (h : ¬ sure) : Leads sure (throw e : Run σ α) s P where
  ok a s' hrun := by cases hrun
  error _ _ _ hs := absurd hs h

/-- What a run leads to whose result is known. -/
theorem leads_of_ok {a : α} (h : m.run.run s = (.ok a, s')) (later : Later sure s s')
    (hP : P a s') : Leads sure m s P where
  ok b s'' hrun := by
    rw [h] at hrun
    cases hrun
    exact ⟨later, hP⟩
  error e s'' hrun := by
    rw [h] at hrun
    cases hrun

theorem run_bind_ok {a : α} (h : m.run.run s = (.ok a, s')) :
    (m >>= f).run.run s = (f a).run.run s' := by
  rw [ExceptT.run_bind, StateT.run_bind, h]
  rfl

theorem run_bind_error {e : Halt} (h : m.run.run s = (.error e, s')) :
    (m >>= f).run.run s = (.error e, s') := by
  rw [ExceptT.run_bind, StateT.run_bind, h]
  rfl

/-- **One run after another.** -/
theorem leads_bind (hm : Leads sure m s P)
    (hf : ∀ a s', Later sure s s' → P a s' → Leads sure (f a) s' Q) :
    Leads sure (m >>= f) s Q := by
  rcases hrun : (m.run.run s : Except Halt α × Session σ) with ⟨e | a, s'⟩
  · refine ⟨fun b s'' h => ?_, fun _ _ _ => hm.error e s' hrun⟩
    rw [run_bind_error hrun] at h
    cases h
  · obtain ⟨later, hP⟩ := hm.ok a s' hrun
    have hfa := hf a s' later hP
    refine ⟨fun b s'' h => ?_, fun e s'' h hs => ?_⟩
    · rw [run_bind_ok hrun] at h
      exact ⟨later.trans (hfa.ok b s'' h).1, (hfa.ok b s'' h).2⟩
    · rw [run_bind_ok hrun] at h
      by_contra hc
      have hc' := later.uncancelled hs (Bool.eq_false_iff.2 hc)
      rw [hfa.error e s'' h hs] at hc'
      cases hc'

/-! ## 3. The steps of a run -/

theorem attempt_ok (a : α) : (attempt (.ok a) : Run σ α) = pure a := rfl

theorem leads_note {r : Record} {P : Unit → Session σ → Prop}
    (h : P () { s with log := s.log.push r }) : Leads sure (note r) s P where
  ok a s' hrun := by
    cases hrun
    exact ⟨⟨Nat.le_refl _, fun _ h => h⟩, h⟩
  error e s' hrun := by cases hrun

theorem leads_get : Leads sure (get : Run σ (Session σ)) s fun _ s' => s' = s where
  ok a s' hrun := by
    cases hrun
    exact ⟨.refl s, rfl⟩
  error e s' hrun := by cases hrun

theorem run_proceed (s : Session σ) : (proceed : Run σ Unit).run.run s =
    (if s.cancelled = true then .error (.fault .cancelled) else .ok (), s) := by
  show (if s.cancelled = true then throw (.fault .cancelled) else pure () :
    Run σ Unit).run.run s = _
  split <;> rfl

theorem leads_proceed : Leads sure (proceed : Run σ Unit) s fun _ s' =>
    s' = s ∧ s.cancelled = false where
  ok a s' hrun := by
    rw [run_proceed] at hrun
    split at hrun
    · cases hrun
    · next hc =>
      cases hrun
      exact ⟨.refl s, rfl, Bool.eq_false_iff.2 hc⟩
  error e s' hrun := by
    rw [run_proceed] at hrun
    split at hrun
    · next hc => exact fun _ => hc
    · cases hrun

theorem run_query_cancelled (engine : Engine σ) (f : Formula) (hc : s.cancelled = true) :
    (query engine f).run.run s = (.error (.fault .cancelled), s) := by
  obtain ⟨e, t, c, q, d, log⟩ := s
  cases hc
  rfl

/-- What a session takes over from the engine when it was asked. -/
structure Asked (engine : Engine σ) (f : Formula) (s s' : Session σ) : Prop where
  state : s'.engine = (engine.decide f s.tickets false s.engine).engine
  tickets : s'.tickets = (engine.decide f s.tickets false s.engine).tickets
  cancelled : s'.cancelled = (engine.decide f s.tickets false s.engine).cancelled
  queries : s'.queries = s.queries + 1
  log : s'.log = s.log.push (.query (s.queries + 1) f.size) ++
    (engine.decide f s.tickets false s.engine).log

/-- What is left of a query after the engine was asked: its answer. -/
theorem run_query (engine : Engine σ) (f : Formula) (hc : s.cancelled = false) :
    ∃ s', (query engine f).run.run s =
        (attempt (engine.decide f s.tickets false s.engine).answer).run.run s' ∧
      Asked engine f s s' := by
  obtain ⟨e, t, c, q, d, log⟩ := s
  cases hc
  exact ⟨_, rfl, rfl, rfl, rfl, rfl, rfl⟩

/-- A query leads to the engine's answer, if the engine only draws numbers, and where the run is sure
    to have a result answers and does not call the run off. -/
theorem leads_query {engine : Engine σ} {f : Formula}
    (draws : s.tickets.next ≤ (engine.decide f s.tickets false s.engine).tickets.next)
    (answers : sure → ∃ b, (engine.decide f s.tickets false s.engine).answer = .ok b)
    (persists : sure → (engine.decide f s.tickets false s.engine).cancelled = false) :
    Leads sure (query engine f) s fun b s' =>
      (engine.decide f s.tickets false s.engine).answer = .ok b ∧ Asked engine f s s' := by
  cases hc : s.cancelled with
  | true =>
    refine ⟨fun b s' hrun => ?_, fun _ _ _ _ => hc⟩
    rw [run_query_cancelled engine f hc] at hrun
    cases hrun
  | false =>
    obtain ⟨s', hq, asked⟩ := run_query engine f hc
    have later : Later sure s s' :=
      ⟨asked.tickets ▸ draws, fun h _ => asked.cancelled.trans (persists h)⟩
    cases ha : (engine.decide f s.tickets false s.engine).answer with
    | error e =>
      refine ⟨fun b s'' hrun => ?_, fun _ _ _ h => ?_⟩
      · rw [hq, ha] at hrun
        cases hrun
      · obtain ⟨b, hb⟩ := answers h
        rw [ha] at hb
        cases hb
    | ok b => exact leads_of_ok (a := b) (by rw [hq, ha]; rfl) later ⟨rfl, asked⟩

/-! ## 4. Runs that may take more rounds -/

/-- The second run does what the first one does, unless the first one ran out of rounds. -/
def Extends (m m' : Run σ α) : Prop :=
  ∀ s, (m.run.run s).1 ≠ .error .outOfRounds → m'.run.run s = m.run.run s

theorem Extends.refl (m : Run σ α) : Extends m m := fun _ _ => rfl

theorem Extends.bind {m m' : Run σ α} {f f' : α → Run σ β} (hm : Extends m m')
    (hf : ∀ a, Extends (f a) (f' a)) : Extends (m >>= f) (m' >>= f') := by
  intro s h
  rcases hrun : (m.run.run s : Except Halt α × Session σ) with ⟨e | a, s'⟩
  · rw [run_bind_error hrun] at h ⊢
    have hne : (m.run.run s).1 ≠ .error .outOfRounds := by
      rw [hrun]
      intro he
      cases he
      exact h rfl
    exact run_bind_error ((hm s hne).trans hrun)
  · rw [run_bind_ok hrun] at h ⊢
    have hne : (m.run.run s).1 ≠ .error .outOfRounds := by
      rw [hrun]
      intro he
      cases he
    rw [run_bind_ok ((hm s hne).trans hrun)]
    exact hf a s' h

theorem Extends.mapM {f f' : α → Run σ β} (hf : ∀ a, Extends (f a) (f' a)) (as : List α) :
    Extends (as.mapM f) (as.mapM f') := by
  induction as with
  | nil => exact .refl _
  | cons a as ih =>
    rw [List.mapM_cons, List.mapM_cons]
    exact (hf a).bind fun b => ih.bind fun bs => .refl _

theorem extends_throw (m : Run σ α) : Extends (throw .outOfRounds) m :=
  fun _ h => absurd rfl h

end Tableau.Run

end CtlTableau
