import CtlTableau.Proofs.Faultless
import CtlTableau.Proofs.Readback
import CtlTableau.Solver.External

/-!
# Reports do not depend on the engine

All engines that tell the truth make a check report the same, wherever the numbers that they draw
put the names of successors, and whatever was run before (`reports_agree`). Expansion and diagrams
tell the truth, and so does an engine that runs a solver, if the solver does
(`Engine.truthful_external`): the text of a query says all that a solver has to know
(`decides_reader`).
-/

namespace CtlTableau

/-! ## 1. Engines that tell the truth -/

/-- In the states for which it is `ready`, the engine gives the truth of every closed formula that
    holds no prime and does not bind the constant, does not call the run off, only draws numbers, and
    stays ready. -/
structure Engine.Truthful {σ : Type} (engine : Engine σ) (ready : σ → Prop) : Prop where
  answers : ∀ f t s, f.IsQuery → Formula.trueName ∉ f.boundNames → ready s →
    (engine.decide f t false s).answer = .ok f.isValid
  persists : ∀ f t s, f.IsQuery → Formula.trueName ∉ f.boundNames → ready s →
    (engine.decide f t false s).cancelled = false
  draws : ∀ f t s, f.IsQuery → Formula.trueName ∉ f.boundNames → ready s →
    t.next ≤ (engine.decide f t false s).tickets.next
  stays : ∀ f t s, f.IsQuery → Formula.trueName ∉ f.boundNames → ready s →
    ready (engine.decide f t false s).engine

/-- An engine that is always ready is complete. -/
theorem Engine.Truthful.complete {σ : Type} {engine : Engine σ}
    (h : engine.Truthful fun _ => True) : engine.Complete where
  truthful f t s b hf hb ha := by
    rw [h.answers f t s hf hb trivial] at ha
    exact (Except.ok.inj ha).symm
  draws f t s hf hb := h.draws f t s hf hb trivial
  answers f t s hf hb := ⟨f.isValid, h.answers f t s hf hb trivial⟩
  persists f t s hf hb := h.persists f t s hf hb trivial

theorem Engine.truthful_diagram : Engine.diagram.Truthful fun _ => True where
  answers _ t s hf _ _ := diagram_answer hf.boolean hf.closed t s
  persists _ _ _ _ _ _ := rfl
  draws _ _ _ _ _ _ := Nat.le_refl _
  stays _ _ _ _ _ _ := trivial

/-- An engine that gives the truth of every proper clause form, and does not call the run off. -/
theorem ClausalEngine.truthful {σ : Type} {engine : ClausalEngine σ}
    (solves : ∀ form s, form.Proper → (engine.solve form false s).answer = .ok form.isTrue ∧
      (engine.solve form false s).cancelled = false) :
    engine.toEngine.Truthful fun _ => True := by
  have reply : ∀ f t s, f.IsQuery → Formula.trueName ∉ f.boundNames →
      (engine.decide f t false s).answer = .ok f.isValid ∧
        (engine.decide f t false s).cancelled = false := by
    intro f t s hf hb
    obtain ⟨form, t', proper, truth, h⟩ := ClausalEngine.decide_of_closed hf.boolean hb
      (Formula.olderThan_of_plain hf.plain t.next) hf.closed
    have outcome := (h engine false s).1
    have answer := congrArg Outcome.answer outcome
    have cancelled := congrArg Outcome.cancelled outcome
    obtain ⟨solved, alone⟩ := solves form s proper
    exact ⟨answer.trans (truth ▸ solved), cancelled.trans alone⟩
  exact {
    answers := fun f t s hf hb _ => (reply f t s hf hb).1
    persists := fun f t s hf hb _ => (reply f t s hf hb).2
    draws := fun f t s _ _ _ => ClausalEngine.le_decide _ f t false s
    stays := fun _ _ _ _ _ _ => trivial }

theorem Engine.truthful_expansion : Engine.expansion.toEngine.Truthful fun _ => True :=
  ClausalEngine.truthful fun _ _ proper =>
    ⟨congrArg Except.ok (ClauseForm.expansion_eq_isTrue proper), rfl⟩

/-- Queries can be kept, if they are to be, the command ends by the truth of every query, and nobody
    calls the run off. -/
structure Solver.Setting.Decides (setting : Setting) : Prop where
  writable : setting.config.dumpDir.bind setting.dirRefusal = none
  ends : ∀ (form : ClauseForm) (s : External), form.Proper → ∃ started exit,
    setting.start s form.qdimacs = .ok started ∧ started.calledOff = false ∧
      started.child.watch.exit? = some exit ∧ exit.verdict? = some form.isTrue

theorem Engine.truthful_external {setting : Solver.Setting} (h : setting.Decides) :
    (Solver.External.engine setting).toEngine.Truthful fun _ => True := by
  refine ClausalEngine.truthful fun form s proper => ?_
  show (Solver.External.solve setting form false s).answer = .ok form.isTrue ∧
    (Solver.External.solve setting form false s).cancelled = false
  obtain ⟨started, exit, start, alone, ended, verdict⟩ :=
    h.ends form (s.count.file setting.config form.qdimacs) proper
  unfold Solver.External.solve Solver.External.attend
  simp only [h.writable]
  rw [start]
  show Solver.External.verdict _ started.child.watch.exit? = _ ∧
    (started.child.watch.exit?.isNone || started.calledOff) = false
  rw [ended, alone]
  unfold Solver.External.verdict
  simp only [verdict]
  exact ⟨trivial, rfl⟩

/-- A solver that reads its query and ends by the truth of it. -/
def Solver.Setting.reader (config : Config) : Setting where
  config
  dirRefusal _ := none
  start _ text :=
    let holds := (ClauseForm.ofQdimacs? text).any (·.1.isTrue)
    let exit : Exit := .code (if holds then Exit.codeTrue else Exit.codeFalse)
    .ok { child := .make 0 (.ended exit) rfl, elapsed := .zero, calledOff := false }

/-- All of a query is in its text. -/
theorem Solver.Setting.decides_reader (config : Config) : (reader config).Decides where
  writable := by
    show config.dumpDir.bind (fun _ => none) = none
    exact Option.bind_fun_none config.dumpDir
  ends form s _ := by
    refine ⟨_, _, rfl, rfl, rfl, ?_⟩
    rw [ClauseForm.ofQdimacs?_qdimacs]
    cases h : form.isTrue <;> simp [h, Exit.verdict?, Exit.codeTrue, Exit.codeFalse]

namespace Tableau

open Run

variable {σ : Type} {T : Tableau} {engine : Engine σ} {ready : σ → Prop} {rounds : Nat}

theorem backs_of_truthful (h : engine.Truthful ready) :
    Dialogue.Backs engine ready True True where
  draws f t s hf hs := h.draws f t s hf.isQuery hf.binders hs
  stays f t s hf hs := h.stays f t s hf.isQuery hf.binders hs
  truthful _ f t s b hf hs hb := by
    rw [h.answers f t s hf.isQuery hf.binders hs] at hb
    exact (Except.ok.inj hb).symm
  answers _ f t s hf hs := ⟨_, h.answers f t s hf.isQuery hf.binders hs⟩
  persists _ f t s hf hs := h.persists f t s hf.isQuery hf.binders hs

/-! ## 2. Reports -/

/-- **A check with an engine that tells the truth reports the truth**, from any session. -/
theorem exists_trueReport (hT : T.Saturated) (he : engine.Truthful ready)
    (hr : T.roundBound ≤ rounds) {s : Session σ} (hs : ready s.engine)
    (hc : s.cancelled = false) :
    ∃ report s', (T.checkWithin engine rounds).run.run s = (.ok report, s') ∧
      T.TrueReport report ∧ ready s'.engine ∧ s'.cancelled = false := by
  have ensures : (Dialogue.check T rounds).Ensures T True True { drawn := Tickets.start.next }
      fun report _ => True → T.TrueReport report := Dialogue.ensures_check hT fun _ => ⟨trivial, hr⟩
  obtain ⟨report, s', hrun, later, _, hreport, hs'⟩ :=
    (ensures.leads (backs_of_truthful he) (at_restarted hs)).exists_ok trivial hc
  refine ⟨report, s', ?_, hreport trivial, hs'.ready, later.uncancelled trivial hc⟩
  rw [run_checkWithin, hrun]

/-- The session after a series of checks, each with an engine and a number of rounds of its own,
    however they ended. -/
def afterChecks (T : Tableau) (checks : List (Engine σ × Nat)) (s : Session σ) : Session σ :=
  checks.foldl (fun s (engine, rounds) => ((T.checkWithin engine rounds).run.run s).2) s

/-- **Reports do not depend on the engine or on what was run before.** For a formula without
    quantifiers there is one report, up to the time it took: every engine that tells the truth makes
    a check report this, in a new session and after any series of checks that were broken off or not,
    if the run is not called off and the engine is ready. And the engine is ready again. -/
theorem reports_agree {f : Formula} (hf : f.isTemporal = true) :
    ∃ T, ofFormula f = .ok T ∧ ∃ satisfiable iterations queries,
      ∀ {σ : Type} (engine : Engine σ) (ready : σ → Prop), engine.Truthful ready →
        ∀ rounds, T.roundBound ≤ rounds →
        ∀ (earlier : List (Engine σ × Nat)) (s : Session σ),
          ready (T.afterChecks earlier s).engine → (T.afterChecks earlier s).cancelled = false →
          ∃ report s',
            (T.checkWithin engine rounds).run.run (T.afterChecks earlier s) = (.ok report, s') ∧
            report.satisfiable = satisfiable ∧ report.iterations = iterations ∧
            report.queries = queries ∧ ready s'.engine ∧ s'.cancelled = false := by
  classical
  obtain ⟨T, hT, -, hsat⟩ := exists_ofFormula hf
  refine ⟨T, hT, decide (∃ t ∈ T.prune^[T.removals + 1] Set.univ, T.Satisfies t T.normalized),
    T.removals + 1, T.questions, fun engine ready he rounds hr earlier s hs hc => ?_⟩
  obtain ⟨report, s', hrun, hreport, hs', hc'⟩ := exists_trueReport hsat he hr hs hc
  refine ⟨report, s', hrun, ?_, hreport.iterations, hreport.queries, hs', hc'⟩
  rw [Bool.eq_iff_iff, hreport.satisfiable_iff, decide_eq_true_iff]

/-- An engine that says yes to two questions, and fails then. -/
def tiring : Engine QueryCount where
  decide _ tickets cancelled s :=
    if s.queries < 2 then { answer := .ok true, engine := ⟨s.queries + 1⟩, cancelled, tickets }
    else { answer := .error (.system "no memory"), engine := s, cancelled, tickets }

/-- After a check that broke off, expansion makes a check report what diagrams do in a new session. -/
theorem reports_agree_atLast :
    ((atLastTableau.checkWithin tiring 9).run.run { engine := {} }).1 =
      .error (.fault (.system "no memory")) ∧
    ∃ report report' s s',
      (atLastTableau.check Engine.diagram).run.run { engine := {} } = (.ok report, s) ∧
      (atLastTableau.check Engine.expansion.toEngine).run.run
        (atLastTableau.afterChecks [(tiring, 9)] { engine := {} }) = (.ok report', s') ∧
      report.satisfiable = report'.satisfiable ∧ report.iterations = report'.iterations ∧
      report.queries = report'.queries := by
  have broken : (atLastTableau.afterChecks [(tiring, 9)] { engine := {} }).cancelled = false := by
    decide +kernel
  obtain ⟨T, hT, _, _, _, h⟩ := reports_agree (f := atLast) rfl
  rw [ofFormula_atLast] at hT
  cases hT
  obtain ⟨report, s, hrun, rfl, rfl, rfl, -, -⟩ :=
    h Engine.diagram _ Engine.truthful_diagram _ (Nat.le_refl _) [] { engine := {} } trivial rfl
  obtain ⟨report', s', hrun', hs, hi, hq, -, -⟩ :=
    h Engine.expansion.toEngine _ Engine.truthful_expansion _ (Nat.le_refl _) [(tiring, 9)]
      { engine := {} } trivial broken
  exact ⟨by decide +kernel, report, report', s, s', hrun, hrun', hs.symm, hi.symm, hq.symm⟩

end Tableau

end CtlTableau
