import CtlTableau.Engine.Scripted
import CtlTableau.Proofs.Checks
import CtlTableau.Proofs.Deciding
import CtlTableau.Proofs.Simulation

/-!
# Checks have no faults of their own

Whatever the engine answers and however many numbers it draws, a check asks nothing but closed
formulas of a simple shape, makes states with new variables, and ends early only if it was called
off, if the engine has a fault, or if it ran out of rounds (`check_faultless`). Its questions are fit
for engines for clause forms: on the way to a clause form nothing can go wrong.
-/

namespace CtlTableau.Tableau

open Run

variable {σ : Type} {T : Tableau} {engine : Engine σ}

/-! ## 1. Engines that only draw numbers -/

/-- An engine that only draws numbers backs all runs, and what it was asked stays a question of a
    check. -/
theorem backs_observed (draws : ∀ f t c s, t.next ≤ (engine.decide f t c s).tickets.next) :
    Dialogue.Backs engine.observed (fun o => ∀ q ∈ o.asked, q.IsExistentialQuery) False False where
  draws f t s _ _ := draws f t false s.inner
  stays f t s hf hs q hq := by
    rcases Array.mem_push.1 hq with hq | rfl
    · exact hs q hq
    · exact hf
  truthful := False.elim
  answers := False.elim
  persists := False.elim

theorem backs_of_draws (draws : ∀ f t c s, t.next ≤ (engine.decide f t c s).tickets.next) :
    Dialogue.Backs engine (fun _ => True) False False where
  draws f t s _ _ := draws f t false s
  stays _ _ _ _ _ := trivial
  truthful := False.elim
  answers := False.elim
  persists := False.elim

theorem exists_of_fst_eq {α β : Type} {x : α × β} {a : α} (h : x.1 = a) : ∃ b, x = (a, b) :=
  ⟨x.2, by rw [← h]⟩

/-! ## 2. The questions of a check -/

/-- On the way to a clause form nothing goes wrong with a question of a check: an engine for clause
    forms answers what it answers to the clause form. -/
theorem exists_form_of_query {q : Formula} (h : q.IsExistentialQuery) (t : Tickets) :
    ∃ form : ClauseForm, form.Proper ∧ form.isTrue = q.isValid ∧
      ∀ {τ : Type} (clausal : ClausalEngine τ) (cancelled : Bool) (u : τ),
        (clausal.toEngine.decide q t cancelled u).answer =
          (clausal.solve form cancelled u).answer := by
  obtain ⟨form, t', proper, truth, h⟩ := ClausalEngine.decide_of_closed
    (Formula.isBoolean_of_isExistential h.existential) h.binders
    (Formula.olderThan_of_plain h.plain t.next) h.closed
  refine ⟨form, proper, truth, fun clausal cancelled u => ?_⟩
  show (clausal.decide q t cancelled u).toOutcome.answer = _
  rw [(h clausal cancelled u).1]

/-! ## 3. Faults -/

/-- **A check has no faults of its own.** Take a formula that has a tableau, and any engine that only
    draws numbers, and answers as it likes. A check does what its dialogue does. All that it asks are
    closed formulas over atoms, "not", "and", "or" and "some" that do not bind the constant and hold no
    prime; every engine for clause forms gets to a clause form for them. A state that is made has no
    variable that occurs in a formula put together before. And if a check ends with a fault, it was
    called off, or its last question was answered with this fault. -/
theorem check_faultless {f : Formula} (hT : ofFormula f = .ok T)
    (draws : ∀ f t c s, t.next ≤ (engine.decide f t c s).tickets.next) (rounds : Nat) :
    T.checkWithin engine rounds = (do restart; (Dialogue.check T rounds).run T engine) ∧
    (∀ s : Session (Observed σ Formula), s.engine.asked = #[] →
      ∀ q ∈ ((T.checkWithin engine.observed rounds).run.run s).2.engine.asked,
        q.IsExistentialQuery ∧ ∀ t, ∃ form : ClauseForm, form.Proper ∧ form.isTrue = q.isValid ∧
          ∀ {τ : Type} (clausal : ClausalEngine τ) (cancelled : Bool) (u : τ),
            (clausal.toEngine.decide q t cancelled u).answer =
              (clausal.solve form cancelled u).answer) ∧
    ∀ s : Session σ,
      (∀ es u es', (Dialogue.check T rounds).events T engine (restarted s) =
          es ++ .fresh u :: es' →
        ∀ g, .built g ∈ es → ∀ x ∈ u.names, x ∉ g.names) ∧
      ∀ e s', (T.checkWithin engine rounds).run.run s = (.error (.fault e), s') →
        e = .cancelled ∨ ∃ es q, (Dialogue.check T rounds).events T engine (restarted s) =
          es ++ [.asked q (.error e)] := by
  have hsat := (saturated_of_ofFormula (isTemporal_of_ofFormula hT) hT).2
  have ensures : (Dialogue.check T rounds).Ensures T False False { drawn := Tickets.start.next }
      fun report _ => False → T.TrueReport report := Dialogue.ensures_check hsat False.elim
  refine ⟨Dialogue.run_check T engine rounds, fun s hs q hq => ?_, fun s => ⟨?_, ?_⟩⟩
  · have asked : ∀ q ∈ s.engine.asked, q.IsExistentialQuery := by simp [hs]
    have ends := ensures.ends (backs_observed draws) (at_restarted asked)
      (run_checkWithin T engine.observed rounds s).symm
    have hq := ends.ready q hq
    exact ⟨hq, exists_form_of_query hq⟩
  · intro es u es' he g hg
    have orderly := ensures.orderly (backs_of_draws draws) (at_restarted (s := s) trivial)
    have apart := orderly.unused
    rw [he, List.pairwise_append] at apart
    exact apart.2.2 _ hg _ List.mem_cons_self g u rfl rfl
  · intro e s' hrun
    rw [run_checkWithin] at hrun
    exact (ensures.ends (backs_of_draws draws) (at_restarted trivial) hrun).fault e rfl

/-- An engine says yes twice, whatever it is asked, and fails then: the check ends with its fault. -/
theorem check_faultless_atLast :
    ofFormula atLast = .ok atLastTableau ∧
    (∀ f t c s, t.next ≤ (Engine.scripted.decide f t c s).tickets.next) ∧
    ∃ es q, (Dialogue.check atLastTableau atLastTableau.roundBound).events atLastTableau
        Engine.scripted
        (restarted { engine := [.answer true, .answer true, .fail "out of memory"] }) =
      es ++ [.asked q (.error (.solver (.reported "out of memory")))] := by
  have draws : ∀ f t c s, t.next ≤ (Engine.scripted.decide f t c s).tickets.next :=
    fun _ _ _ _ => Nat.le_refl _
  have fails : ((atLastTableau.check Engine.scripted).run.run
      { engine := [.answer true, .answer true, .fail "out of memory"] }).1 =
        .error (.fault (.solver (.reported "out of memory"))) := by decide +kernel
  obtain ⟨s', hrun⟩ := exists_of_fst_eq fails
  have h := check_faultless ofFormula_atLast draws atLastTableau.roundBound
  exact ⟨ofFormula_atLast, draws, ((h.2.2 _).2 _ s' hrun).resolve_left nofun⟩

end CtlTableau.Tableau
