import CtlTableau.Proofs.Rounds
import Mathlib.Order.Bounds.Basic

/-!
# A check carries the algorithm on sets out

`After` follows the rounds of a check: which formula stands for the states that are left, and in which
session the next round begins. After `n` rounds the formula stands for the `n`-fold pruned set of all
states (`after_describes`), whatever the engine invented for its answers and however deep the formula
nests the quantified successors of earlier rounds.

Main statements:

* `check_prunes`: a check stops at the first round that removes nothing and reports whether a state is
  left that satisfies the formula;
* `check_ends`: with an engine that always answers, every loop of a check has an end, and none takes
  more rounds than there are states and one more. Allowing more rounds changes nothing.
-/

namespace CtlTableau.Tableau

open Run SymbolicState

variable {σ : Type} {T : Tableau} {engine : Engine σ} {rounds : Nat} {sure : Prop}

/-! ## 1. More rounds than are taken -/

section Extends

variable {rounds' : Nat} {states : Formula} {v : SymbolicState}

theorem extends_grow {step : Formula → Run σ Formula} {fuel fuel' : Nat} (h : fuel ≤ fuel')
    (r : Nat) (f : Formula) :
    Extends (grow engine v step fuel r f) (grow engine v step fuel' r f) := by
  induction fuel generalizing fuel' r f with
  | zero => exact extends_throw _
  | succ fuel ih =>
    obtain ⟨fuel', rfl⟩ : ∃ k, fuel' = k + 1 := ⟨fuel' - 1, by omega⟩
    rw [grow, grow]
    refine (Extends.refl _).bind fun g => (Extends.refl _).bind fun grows => ?_
    cases grows with
    | true =>
      rw [if_pos rfl, if_pos rfl]
      exact ih (by omega) _ _
    | false =>
      rw [if_neg Bool.false_ne_true, if_neg Bool.false_ne_true]
      exact .refl _

theorem extends_round (h : rounds ≤ rounds') (n : Nat) :
    Extends (T.round engine rounds v n states) (T.round engine rounds' v n states) := by
  have loops : ∀ step : Formula → Run σ Formula,
      Extends (grow engine v step rounds 0 .falsity) (grow engine v step rounds' 0 .falsity) :=
    fun step => extends_grow h _ _
  have untils : Extends (T.untilsMet engine rounds states v)
      (T.untilsMet engine rounds' states v) :=
    (Extends.mapM (fun (_, _) => ((loops _).bind fun _ => .refl _).bind fun _ => .refl _) _).bind
      fun _ => .refl _
  have everyUntils : Extends (T.everyUntilsMet engine rounds states v)
      (T.everyUntilsMet engine rounds' states v) :=
    (Extends.mapM (fun (_, _) => ((loops _).bind fun _ => .refl _).bind fun _ => .refl _) _).bind
      fun _ => .refl _
  have refined : Extends (T.refined engine rounds v states) (T.refined engine rounds' v states) :=
    (Extends.refl _).bind fun _ => (Extends.refl _).bind fun _ => untils.bind fun _ =>
      everyUntils.bind fun _ => .refl _
  exact (Extends.refl _).bind fun _ => (Extends.refl _).bind fun _ => refined.bind fun _ => .refl _

theorem extends_refine (h : rounds ≤ rounds') {fuel fuel' : Nat} (hfuel : fuel ≤ fuel') (n : Nat)
    (states : Formula) :
    Extends (T.refine engine rounds v fuel n states) (T.refine engine rounds' v fuel' n states) := by
  induction fuel generalizing fuel' n states with
  | zero => exact extends_throw _
  | succ fuel ih =>
    obtain ⟨fuel', rfl⟩ : ∃ k, fuel' = k + 1 := ⟨fuel' - 1, by omega⟩
    rw [refine, refine]
    refine (extends_round h _).bind ?_
    intro r
    obtain ⟨rest, removed⟩ := r
    dsimp only
    cases removed with
    | true =>
      rw [if_pos rfl, if_pos rfl]
      exact ih (by omega) _ _
    | false =>
      rw [if_neg Bool.false_ne_true, if_neg Bool.false_ne_true]
      exact .refl _

/-- A check that did not run out of rounds is the same with more rounds. -/
theorem extends_checkWithin (h : rounds ≤ rounds') :
    Extends (T.checkWithin engine rounds) (T.checkWithin engine rounds') :=
  (Extends.refl _).bind fun _ => (Extends.refl _).bind fun _ =>
    (extends_refine h h _ _).bind fun _ => .refl _

end Extends

/-! ## 2. The rounds of a check -/

/-- The session in which a check begins its rounds. -/
def restarted (s : Session σ) : Session σ :=
  { s with tickets := .start, queries := 0, elapsed := .zero }

theorem run_restart (s : Session σ) : (restart : Run σ Unit).run.run s = (.ok (), restarted s) :=
  rfl

/-- After a number of rounds of a check from `s`, which all removed states: the formula for the states
    that are left, and the session in which the next round begins. -/
inductive After (T : Tableau) (engine : Engine σ) (rounds : Nat) (s : Session σ) :
    Nat → Formula → Session σ → Prop where
  | start : After T engine rounds s 0 .truth (restarted s)
  | round {n : Nat} {states rest : Formula} {s' s'' : Session σ}
      (before : After T engine rounds s n states s')
      (removed : (T.round engine rounds T.current (n + 1) states).run.run s' =
        (.ok (rest, true), s'')) :
      After T engine rounds s (n + 1) rest s''

/-- The round that begins was reached by way of all rounds before it. -/
theorem After.exists_of_le {s s' : Session σ} {m n : Nat} {states : Formula}
    (h : T.After engine rounds s n states s') (hm : m ≤ n) :
    ∃ states s', T.After engine rounds s m states s' := by
  induction h with
  | start =>
    rw [Nat.le_zero.1 hm]
    exact ⟨_, _, .start⟩
  | round before removed ih =>
    rcases Nat.le_succ_iff.1 hm with hm | rfl
    · exact ih hm
    · exact ⟨_, _, .round before removed⟩

/-- **After `n` rounds the formula stands for the `n`-fold pruned set of all states**, and every round
    so far removed a state. -/
theorem after_describes (he : engine.Sound) (hT : T.Saturated) {s s' : Session σ} {n : Nat}
    {states : Formula} (h : T.After engine rounds s n states s') :
    T.current.Describes s'.tickets.next states (T.prune^[n] Set.univ) ∧
      ∀ i < n, ¬ T.prune^[i] Set.univ ⊆ T.prune^[i + 1] Set.univ := by
  induction h with
  | start => exact ⟨describes_truth, fun i hi => absurd hi (Nat.not_lt_zero i)⟩
  | @round n states rest s' s'' before removed ih =>
    have b : T.Backing engine rounds False := ⟨he, False.elim, False.elim⟩
    obtain ⟨later, hrest, hremoved⟩ := (leads_round b hT ih.1 (n + 1)).ok _ _ removed
    rw [Function.iterate_succ_apply' T.prune]
    refine ⟨hrest, fun i hi => ?_⟩
    rcases Nat.lt_succ_iff_lt_or_eq.1 hi with hi | rfl
    · exact ih.2 i hi
    · rw [Function.iterate_succ_apply' T.prune]
      exact hremoved.1 rfl

/-- The run was not called off on the way if it is sure to have a result. -/
theorem after_later (b : Backing T engine rounds sure) (hT : T.Saturated) {s s' : Session σ}
    {n : Nat} {states : Formula} (h : T.After engine rounds s n states s') :
    Later sure (restarted s) s' := by
  induction h with
  | start => exact .refl _
  | round before removed ih =>
    have hstates := (after_describes b.sound hT before).1
    exact ih.trans ((leads_round b hT hstates _).ok _ _ removed).1

/-- There are no more rounds than states. -/
theorem after_le (he : engine.Sound) (hT : T.Saturated) {s s' : Session σ} {n : Nat}
    {states : Formula} (h : T.After engine rounds s n states s') : n + 1 ≤ T.roundBound :=
  T.lt_roundBound (le_card_of_shrinks T.prune_subset (after_describes he hT h).2)

/-- What the rounds of a check lead to: the first round that removes nothing. -/
structure Settled (T : Tableau) (engine : Engine σ) (rounds : Nat) (s : Session σ) (states : Formula)
    (iterations : Nat) (s' : Session σ) : Prop where
  reached : ∀ n < iterations, ∃ states s'', T.After engine rounds s n states s''
  describes : T.current.Describes s'.tickets.next states (T.prune^[iterations] Set.univ)
  first : IsLeast {k | 1 ≤ k ∧ T.prune^[k] Set.univ = T.prune^[k - 1] Set.univ} iterations
  bounded : iterations ≤ T.roundBound

theorem leads_refine (b : Backing T engine rounds sure) (hT : T.Saturated) {s s' : Session σ}
    {fuel n : Nat} {states : Formula} (h : T.After engine rounds s n states s')
    (enough : sure → T.roundBound ≤ fuel + n) :
    Leads sure (T.refine engine rounds T.current fuel n states) s' fun res s'' =>
      T.Settled engine rounds s res.1 res.2 s'' := by
  induction fuel generalizing n states s' with
  | zero =>
    refine leads_throw fun hs => ?_
    have h1 := enough hs
    have h2 := after_le b.sound hT h
    omega
  | succ fuel ih =>
    obtain ⟨hstates, shrank⟩ := after_describes b.sound hT h
    rw [refine]
    refine leads_bind (leads_round b hT hstates (n + 1)).with_run ?_
    intro r s'' _ h
    obtain ⟨rest, removed⟩ := r
    obtain ⟨hrun, hrest, hremoved⟩ := h
    dsimp only at hrest hremoved ⊢
    cases removed with
    | true =>
      rw [if_pos rfl]
      exact ih (.round h hrun) fun hs => by
        have := enough hs
        omega
    | false =>
      rw [if_neg Bool.false_ne_true]
      have stable : T.prune^[n] Set.univ ⊆ T.prune (T.prune^[n] Set.univ) := by
        by_contra hne
        cases hremoved.2 hne
      rw [← Function.iterate_succ_apply' T.prune] at stable hrest
      refine leads_pure ⟨fun m hm => h.exists_of_le (Nat.lt_succ_iff.1 hm), hrest,
        ⟨⟨Nat.succ_pos n, ?_⟩, ?_⟩, after_le b.sound hT h⟩
      · rw [Nat.add_sub_cancel]
        refine Set.Subset.antisymm ?_ stable
        rw [Function.iterate_succ_apply']
        exact T.prune_subset _
      · intro k h
        obtain ⟨hk, hfix⟩ := h
        by_contra hlt
        obtain ⟨j, rfl⟩ : ∃ j, k = j + 1 := ⟨k - 1, by omega⟩
        refine shrank j (by omega) ?_
        rw [Nat.add_sub_cancel] at hfix
        rw [hfix]

/-! ## 3. Checks -/

/-- A check is the run of its dialogue from the restarted session. -/
theorem run_checkWithin (T : Tableau) (engine : Engine σ) (rounds : Nat) (s : Session σ) :
    (T.checkWithin engine rounds).run.run s =
      ((Dialogue.check T rounds).run T engine).run.run (restarted s) := by
  rw [Dialogue.run_check, run_bind_ok (run_restart s)]

/-- The session of a check when it begins its dialogue. -/
theorem at_restarted {ready : σ → Prop} {s : Session σ} (h : ready s.engine) :
    Dialogue.At ready { drawn := Tickets.start.next } (restarted s) :=
  ⟨h, rfl, rfl⟩

/-- What a report of a check has to say. -/
structure Reports (T : Tableau) (engine : Engine σ) (rounds : Nat) (s : Session σ)
    (report : Report) : Prop where
  /-- Every round that is counted was begun. -/
  reached : ∀ n < report.iterations, ∃ states s', T.After engine rounds s n states s'
  /-- The last round is the first one that removed nothing. -/
  first : IsLeast {k | 1 ≤ k ∧ T.prune^[k] Set.univ = T.prune^[k - 1] Set.univ} report.iterations
  bounded : report.iterations ≤ T.roundBound
  satisfiable_iff : report.satisfiable = true ↔
    ∃ t ∈ T.prune^[report.iterations] Set.univ, T.Satisfies t T.normalized

/-- What was counted before does not matter. -/
theorem run_restarted (s : Session σ) :
    (T.checkWithin engine rounds).run.run (restarted s) =
      (T.checkWithin engine rounds).run.run s := by
  rw [run_checkWithin, run_checkWithin]
  rfl

theorem leads_checkWithin (b : Backing T engine rounds sure) (hT : T.Saturated) (s : Session σ) :
    Leads sure (T.checkWithin engine rounds) (restarted s) fun report _ =>
      T.Reports engine rounds s report := by
  have again : Leads sure restart (restarted s) fun _ s' => s' = restarted s :=
    ⟨fun a s' h => by cases h; exact ⟨.refl _, rfl⟩, fun e s' h => by cases h⟩
  refine leads_bind again ?_
  intro _ s' _ e
  subst e
  rw [make_stateStem, attempt_ok, pure_bind]
  refine leads_bind (leads_refine b hT .start b.enough) ?_
  intro r s1 _ settled
  obtain ⟨states, iterations⟩ := r
  refine leads_bind (leads_note (P := fun _ s2 => s2.tickets = s1.tickets) rfl) fun _ s2 _ h2 => ?_
  have hstates : T.current.Describes s2.tickets.next states (T.prune^[iterations] Set.univ) :=
    h2 ▸ settled.describes
  obtain ⟨value, hvalue, dvalue⟩ := exists_value hT.decides s2.tickets.next
  have both : T.current.Describes s2.tickets.next (.and states value)
      {t | t ∈ T.prune^[iterations] Set.univ ∧ T.Satisfies t T.normalized} := hstates.and dvalue
  rw [hvalue, attempt_ok, pure_bind]
  refine leads_bind (leads_inquire b both) ?_
  intro satisfiable s3 _ answered
  refine leads_bind leads_get ?_
  intro s4 _ _ e
  subst e
  refine leads_bind (leads_note (P := fun _ _ => True) trivial) fun _ s5 _ _ => leads_pure ?_
  exact ⟨settled.reached, settled.first, settled.bounded, answered⟩

/-- Every report of a check with an engine that tells the truth says what it has to. -/
theorem reports_of_ok (he : engine.Sound) (hT : T.Saturated) {s s' : Session σ} {report : Report}
    (h : (T.checkWithin engine rounds).run.run s = (.ok report, s')) :
    T.Reports engine rounds s report :=
  ((leads_checkWithin ⟨he, False.elim, False.elim⟩ hT s).ok report s'
    ((run_restarted s).trans h)).2

/-- A check with an engine that always answers has a report if there are enough rounds. -/
theorem exists_report (he : engine.Complete) (hT : T.Saturated) (hr : T.roundBound ≤ rounds)
    {s : Session σ} (hs : s.cancelled = false) :
    ∃ report s', (T.checkWithin engine rounds).run.run s = (.ok report, s') := by
  have b : T.Backing engine rounds True := ⟨he.toSound, fun _ => he, fun _ => hr⟩
  obtain ⟨report, s', h, -⟩ := (leads_checkWithin b hT s).exists_ok trivial hs
  exact ⟨report, s', (run_restarted s).symm.trans h⟩

/-- The formula of the instances below: "p" comes at last on all paths. -/
def atLast : Formula := .af (.atom "p")

/-- Its tableau: a state decides "p", and whether "p" stays away on some path from a successor on. -/
def atLastTableau : Tableau :=
  ⟨.au .truth (.atom "p"), ⟨[.atom "p", .ex (.er .falsity (.not (.atom "p")))], by decide⟩⟩

theorem ofFormula_atLast : ofFormula atLast = .ok atLastTableau := by
  have collected : atLast.normalize.elementaryList = .ok
      [.ax (.au .truth (.atom "p")), .ex (.er .falsity (.not (.atom "p"))), .atom "p",
        .not (.atom "p")] := rfl
  refine ofFormula_of_collected collected fun g => ?_
  simp only [OrderedSet.mem_def, List.mem_cons, List.not_mem_nil, or_false]
  constructor
  · intro h
    rcases h with rfl | rfl
    · exact ⟨Or.inr (Or.inr (Or.inl rfl)), rfl⟩
    · exact ⟨Or.inr (Or.inl rfl), rfl⟩
  · intro h
    obtain ⟨rfl | rfl | rfl | rfl, hg⟩ := h
    · cases hg
    · exact Or.inr rfl
    · exact Or.inl rfl
    · cases hg

/-- **A check carries the algorithm on sets of states out.** At the start of every round the formula
    stands for the set that the rounds so far have left; a check that has a report stopped at the
    first round that removed nothing, and reports whether a state is left that satisfies the
    normalized formula; and it has a report if the engine always answers. -/
theorem check_prunes {f : Formula} (hf : f.isTemporal = true) (hT : ofFormula f = .ok T)
    (he : engine.Sound) (rounds : Nat) (s : Session σ) :
    (∀ n states s', T.After engine rounds s n states s' → ∀ ρ,
      {t | states.eval (T.current.write ρ t) = true} = T.prune^[n] Set.univ) ∧
    (∀ report s', (T.checkWithin engine rounds).run.run s = (.ok report, s') →
      (∀ n < report.iterations, ∃ states s'', T.After engine rounds s n states s'') ∧
      IsLeast {k | 1 ≤ k ∧ T.prune^[k] Set.univ = T.prune^[k - 1] Set.univ} report.iterations ∧
      (report.satisfiable = true ↔
        ∃ t ∈ T.prune^[report.iterations] Set.univ, T.Satisfies t f.normalize)) ∧
    (engine.Complete → s.cancelled = false → T.roundBound ≤ rounds →
      ∃ report s', (T.checkWithin engine rounds).run.run s = (.ok report, s')) := by
  obtain ⟨hn, hT⟩ := saturated_of_ofFormula hf hT
  refine ⟨fun n states s' h ρ => ?_, fun report s' h => ?_, fun hc hs hr => ?_⟩
  · exact Set.ext fun t => (after_describes he hT h).1.eval_write ρ t
  · have r := reports_of_ok he hT h
    rw [← hn]
    exact ⟨r.reached, r.first, r.satisfiable_iff⟩
  · exact exists_report hc hT hr hs

/-- The check of the instance has a report, and the report speaks of the pruned sets of its states. -/
theorem check_prunes_atLast : ∃ report s',
    (atLastTableau.check Engine.oracle).run.run { engine := () } = (.ok report, s') ∧
      (report.satisfiable = true ↔ ∃ t ∈ atLastTableau.prune^[report.iterations] Set.univ,
        atLastTableau.Satisfies t atLast.normalize) := by
  have h := check_prunes (f := atLast) rfl ofFormula_atLast Engine.complete_oracle.toSound
    atLastTableau.roundBound { engine := () }
  obtain ⟨report, s', hrun⟩ := h.2.2 Engine.complete_oracle rfl (Nat.le_refl _)
  exact ⟨report, s', hrun, (h.2.1 report s' hrun).2.2⟩

/-- **A check ends.** With an engine that always answers there is a report after at most as many
    rounds as there are states and one more, and so there is for the loop of every "until" that a
    round looks for. More rounds may be allowed, but none is taken. -/
theorem check_ends {f : Formula} (hf : f.isTemporal = true) :
    ∃ T, ofFormula f = .ok T ∧ ∀ {σ : Type} (engine : Engine σ), engine.Complete →
      ∀ s : Session σ, s.cancelled = false → ∀ rounds, 2 ^ T.elementary.size + 1 ≤ rounds →
        (∃ report s', (T.check engine).run.run s = (.ok report, s') ∧
          (T.checkWithin engine rounds).run.run s = (.ok report, s') ∧
          report.iterations ≤ 2 ^ T.elementary.size + 1) ∧
        ∀ n states s', T.After engine rounds s n states s' →
          n + 1 ≤ 2 ^ T.elementary.size + 1 ∧
          ∀ s1, Later True s' s1 →
            (∀ p q, (p, q) ∈ T.untils → ∃ fragment s2,
              (T.untilFragment engine rounds states T.current p q).run.run s1 =
                (.ok fragment, s2) ∧ T.Converged .eu p q s2) ∧
            ∀ p q, (p, q) ∈ T.releases → ∃ fragment s2,
              (T.everyUntilFragment engine rounds states T.current p.negate q.negate).run.run s1 =
                (.ok fragment, s2) ∧ T.Converged .au p.negate q.negate s2 := by
  obtain ⟨T, hT, -, hsat⟩ := exists_ofFormula hf
  refine ⟨T, hT, fun {σ} engine he s hs rounds hr => ⟨?_, fun n states s' h => ⟨?_, ?_⟩⟩⟩
  · obtain ⟨report, s', h⟩ := exists_report he hsat (Nat.le_refl _) hs
    have hne : ((T.checkWithin engine T.roundBound).run.run s).1 ≠ .error .outOfRounds := by
      rw [h]
      simp
    exact ⟨report, s', h, (extends_checkWithin hr s hne).trans h,
      (reports_of_ok he.toSound hsat h).bounded⟩
  · exact after_le he.toSound hsat h
  · intro s1 later
    have b : Backing T engine rounds True := ⟨he.toSound, fun _ => he, fun _ => hr⟩
    have hs1 := later.uncancelled trivial ((after_later b hsat h).uncancelled trivial hs)
    have hstates := (after_describes he.toSound hsat h).1.later later.tickets
    constructor
    · intro p q hpq
      obtain ⟨hp, hq⟩ := hsat.until (mem_untils.1 hpq)
      obtain ⟨fragment, s2, hrun, -, -, hn⟩ :=
        (leads_untilFragment b hsat hp hq hstates).exists_ok trivial hs1
      exact ⟨fragment, s2, hrun, hn⟩
    · intro p q hpq
      obtain ⟨hp, hq⟩ := hsat.release (mem_releases.1 hpq)
      obtain ⟨fragment, s2, hrun, -, -, hn⟩ :=
        (leads_everyUntilFragment b hsat hp.negate hq.negate hstates).exists_ok trivial hs1
      exact ⟨fragment, s2, hrun, hn⟩

/-- The check of the instance ends within five rounds, as there are four states. -/
theorem check_ends_atLast : ∃ report s',
    (atLastTableau.check Engine.oracle).run.run { engine := () } = (.ok report, s') ∧
      report.iterations ≤ 5 := by
  obtain ⟨T, hT, h⟩ := check_ends (f := atLast) rfl
  rw [ofFormula_atLast] at hT
  cases hT
  obtain ⟨report, s', hrun, -, hle⟩ :=
    (h Engine.oracle Engine.complete_oracle { engine := () } rfl _ (Nat.le_refl _)).1
  exact ⟨report, s', hrun, hle⟩

end CtlTableau.Tableau
