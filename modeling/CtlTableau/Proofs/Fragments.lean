import CtlTableau.Proofs.Agreement
import CtlTableau.Proofs.StateSets

/-!
# The loops for "until" among any states

A loop that looks for an "until" among states does so whatever boolean formula these are given by, if
the formula leaves the variables of later successors alone. The step of the loop makes successor
states and does nothing else to the session (`Builds`); it does to formulas what `pathStep` and
`treeStep` do to their sets (`builds_untilStep`, `builds_everyUntilStep`). So an engine that can be
relied on stops the loop at the least fixpoint of its step (`leads_grow`).
-/

namespace CtlTableau

/-! ## 1. Engines that can be relied on -/

namespace Engine

variable {σ : Type} {engine : Engine σ} {ready : σ → Prop} {rebinds rebinds' sure sure' : Prop}

/-- In the states for which it is `ready`, the engine answers with the truth, if it answers at all,
    only draws numbers and stays ready; and if `sure` holds, it answers and does not call the run off.
    This is so for closed formulas that hold no prime, and bind the constant only where `rebinds`
    holds. -/
structure Reliable (engine : Engine σ) (rebinds : Prop) (ready : σ → Prop) (sure : Prop) : Prop where
  truthful : ∀ f t s b, f.IsQuery → (Formula.trueName ∈ f.boundNames → rebinds) → ready s →
    (engine.decide f t false s).answer = .ok b → b = f.isValid
  draws : ∀ f t s, f.IsQuery → (Formula.trueName ∈ f.boundNames → rebinds) → ready s →
    t.next ≤ (engine.decide f t false s).tickets.next
  stays : ∀ f t s, f.IsQuery → (Formula.trueName ∈ f.boundNames → rebinds) → ready s →
    ready (engine.decide f t false s).engine
  answers : sure → ∀ f t s, f.IsQuery → (Formula.trueName ∈ f.boundNames → rebinds) → ready s →
    ∃ b, (engine.decide f t false s).answer = .ok b
  persists : sure → ∀ f t s, f.IsQuery → (Formula.trueName ∈ f.boundNames → rebinds) → ready s →
    (engine.decide f t false s).cancelled = false

theorem Reliable.mono (h : engine.Reliable rebinds ready sure) (hr : rebinds' → rebinds)
    (hs : sure' → sure) : engine.Reliable rebinds' ready sure' where
  truthful f t s b hf hb := h.truthful f t s b hf (hr ∘ hb)
  draws f t s hf hb := h.draws f t s hf (hr ∘ hb)
  stays f t s hf hb := h.stays f t s hf (hr ∘ hb)
  answers h' f t s hf hb := h.answers (hs h') f t s hf (hr ∘ hb)
  persists h' f t s hf hb := h.persists (hs h') f t s hf (hr ∘ hb)

/-- An engine that answers with the truth unless the constant is bound, and answers every query where
    this is asked for. -/
theorem Sound.reliable (h : engine.Sound) (complete : sure → engine.Complete) :
    engine.Reliable False (fun _ => True) sure where
  truthful f t s b hf hb _ := h.truthful f t s b hf hb
  draws f t s hf hb _ := h.draws f t s hf hb
  stays _ _ _ _ _ _ := trivial
  answers hs f t s hf hb _ := (complete hs).answers f t s hf hb
  persists hs f t s hf hb _ := (complete hs).persists f t s hf hb

/-- The oracle knows the truth of formulas that bind the constant, too. -/
theorem reliable_oracle : oracle.Reliable rebinds (fun _ => True) sure where
  truthful _ _ _ _ _ _ _ h := (Except.ok.inj h).symm
  draws _ _ _ _ _ _ := Nat.le_refl _
  stays _ _ _ _ _ _ := trivial
  answers _ f _ _ _ _ _ := ⟨f.isValid, rfl⟩
  persists _ _ _ _ _ _ _ := rfl

/-- An engine that tells the truth unless the constant is bound. -/
theorem Truthful.reliable (h : engine.Truthful ready) : engine.Reliable False ready sure where
  truthful f t s b hf hb hs ha := by
    rw [h.answers f t s hf hb hs] at ha
    exact (Except.ok.inj ha).symm
  draws f t s hf hb hs := h.draws f t s hf hb hs
  stays f t s hf hb hs := h.stays f t s hf hb hs
  answers _ f t s hf hb hs := ⟨_, h.answers f t s hf hb hs⟩
  persists _ f t s hf hb hs := h.persists f t s hf hb hs

end Engine

namespace Tableau

open Run SymbolicState

variable {σ α β : Type} {T : Tableau} {rebinds : Prop} {k n : Nat} {f states p q : Formula}
  {X Y : Set (State T.elementary)}

/-! ## 2. Runs that make successors and nothing else -/

namespace Run

variable {m : Run σ α} {g : α → Run σ β} {P : α → Nat → Prop} {Q : β → Nat → Prop}

/-- From any session in which the numbers from `k` on are left, the run has a result with the
    property, which may speak of the numbers that are left then; nothing else of the session
    changes. -/
def Builds (m : Run σ α) (k : Nat) (P : α → Nat → Prop) : Prop :=
  ∀ s : Session σ, s.tickets.next = k →
    ∃ a n, m.run.run s = (.ok a, { s with tickets := ⟨n⟩ }) ∧ k ≤ n ∧ P a n

theorem builds_pure {a : α} (h : P a k) : Builds (pure a : Run σ α) k P := by
  rintro s rfl
  exact ⟨a, s.tickets.next, rfl, Nat.le_refl _, h⟩

theorem Builds.bind (hm : Builds m k P) (hg : ∀ a n, k ≤ n → P a n → Builds (g a) n Q) :
    Builds (m >>= g) k Q := by
  intro s hs
  obtain ⟨a, n, hrun, hn, hP⟩ := hm s hs
  obtain ⟨b, n', hrun', hn', hQ⟩ := hg a n hn hP { s with tickets := ⟨n⟩ } rfl
  exact ⟨b, n', (run_bind_ok hrun).trans hrun', Nat.le_trans hn hn', hQ⟩

theorem Builds.mono {P' : α → Nat → Prop} (hm : Builds m k P) (h : ∀ a n, k ≤ n → P a n → P' a n) :
    Builds m k P' := by
  intro s hs
  obtain ⟨a, n, hrun, hn, hP⟩ := hm s hs
  exact ⟨a, n, hrun, hn, h a n hn hP⟩

theorem builds_attempt {r : Except Fault α} {a : α} (hr : r = .ok a) (h : Builds (g a) k Q) :
    Builds (attempt r >>= g) k Q := by
  subst hr
  rwa [attempt_ok, pure_bind]

/-- A list of results, of each of which something is said that stays true. -/
theorem Builds.mapM {R : Nat → α → β → Prop} (hR : ∀ k k' a b, k ≤ k' → R k a b → R k' a b)
    {as : List α} (hg : ∀ a ∈ as, ∀ n, k ≤ n → Builds (g a) n fun b n' => R n' a b) :
    Builds (as.mapM g) k fun bs n => List.Forall₂ (R n) as bs := by
  induction as generalizing k with
  | nil => exact builds_pure .nil
  | cons a as ih =>
    rw [List.mapM_cons]
    refine (hg a List.mem_cons_self k (Nat.le_refl k)).bind fun b n hn hb => ?_
    refine (ih fun a' ha' n' hn' => hg a' (List.mem_cons_of_mem a ha') n'
      (Nat.le_trans hn hn')).bind fun bs n' hn' hbs => ?_
    exact builds_pure (.cons (hR _ _ _ _ hn' hb) hbs)

theorem Builds.leads {s : Session σ} (h : Builds m s.tickets.next P) (sure : Prop) :
    Leads sure m s fun a s' => P a s'.tickets.next ∧ s'.engine = s.engine := by
  obtain ⟨a, n, hrun, hn, hP⟩ := h s rfl
  exact leads_of_ok hrun ⟨hn, fun _ hc => hc⟩ ⟨hP, rfl⟩

end Run

theorem builds_freshState : Builds (T.freshState : Run σ SymbolicState) k fun u n =>
    u = T.successor k ∧ n = k + 1 := by
  rintro s rfl
  exact ⟨_, _, Dialogue.run_freshState T s, Nat.le_succ _, rfl, rfl⟩

/-! ## 3. Successors -/

/-- What is demanded of a successor: that it is in a set. -/
structure Demands (T : Tableau) (rebinds : Prop) (n : Nat) (fs : List Formula)
    (Y : Set (State T.elementary)) : Prop where
  regards : ∀ f ∈ fs, T.Regards rebinds (T.Between n) (n + 1) f
  means : ∀ ρ, (∀ f ∈ fs, f.eval ρ = true) ↔ (T.successor n).read ρ ∈ Y

/-- That a successor is a member of the set of a formula about the current state. -/
theorem exists_demands (hf : T.Regards rebinds (· ∈ T.current.names) k f) (hk : k ≤ n) : ∃ fs,
    (do return [← T.current.transfer (T.successor n) f]) =
      (.ok fs : Except Fault (List Formula)) ∧ T.Demands rebinds n fs (T.members f) := by
  obtain ⟨f', hf', regards, means⟩ := hf.exists_moved hk
  refine ⟨[f'], by simp [hf', bind, Except.bind, pure, Except.pure], fun g hg => ?_, fun ρ => ?_⟩
  · rw [List.mem_singleton.1 hg]
    exact regards.mono (fun _ => Or.inr) (Nat.le_refl _)
  · rw [List.forall_mem_singleton, means]

/-- Besides, that it satisfies a formula. -/
theorem Demands.exists_value {fs : List Formula} {g : Formula} (h : T.Demands rebinds n fs Y)
    (hg : T.Decides g) : ∃ a, (T.successor n).value g = .ok a ∧
      T.Demands rebinds n (fs ++ [a]) {t | t ∈ Y ∧ T.Satisfies t g} := by
  obtain ⟨a, ha, da⟩ := exists_successor_value hg n
  refine ⟨a, ha, fun f hf => ?_, fun ρ => ?_⟩
  · rcases List.mem_append.1 hf with hf | hf
    · exact h.regards f hf
    · rw [List.mem_singleton.1 hf]
      exact .of_speaks (da.speaks.mono (fun _ => Or.inr) (Nat.le_refl n))
        (fun _ => binds_of_between) (Nat.le_succ n)
  · rw [List.forall_mem_append, List.forall_mem_singleton, h.means, da.means]
    exact Iff.rfl

/-- **The states with a successor among the states of which more is demanded.** -/
theorem builds_successorIn (hT : T.Saturated)
    (hstates : T.Regards rebinds (· ∈ T.current.names) k states)
    {more : SymbolicState → Except Fault (List Formula)} {fs : List Formula}
    (hmore : more (T.successor k) = .ok fs) (demands : T.Demands rebinds k fs Y) :
    Builds (T.successorIn states T.current more : Run σ Formula) k fun f n =>
      T.Regards rebinds (· ∈ T.current.names) n f ∧
        ∀ s, s ∈ T.members f ↔ ∃ t ∈ T.members states, T.Follows s t ∧ t ∈ Y := by
  refine builds_freshState.bind fun u n _ h => ?_
  obtain ⟨rfl, rfl⟩ := h
  obtain ⟨step, hstep, dstep⟩ := exists_transition hT k
  obtain ⟨among, hamong, regards, means⟩ := hstates.exists_moved (Nat.le_refl k)
  refine builds_attempt hstep (builds_attempt hamong (builds_attempt hmore (builds_pure ?_)))
  have body : T.Regards rebinds (T.Between k) (k + 1) (.conj (step :: among :: fs)) := by
    refine .conj fun g hg => ?_
    rcases List.mem_cons.1 hg with rfl | hg
    · exact .of_speaks dstep.speaks (fun _ => binds_of_between) (Nat.le_succ k)
    · rcases List.mem_cons.1 hg with rfl | hg
      · exact regards.mono (fun _ => Or.inr) (Nat.le_refl _)
      · exact demands.regards g hg
  refine ⟨body.quantify, fun s => ?_⟩
  have bodyTrue : ∀ ρ, (Formula.conj (step :: among :: fs)).eval ρ = true ↔
      T.Follows (T.current.read ρ) ((T.successor k).read ρ) ∧
        (T.successor k).read ρ ∈ T.members states ∧ (T.successor k).read ρ ∈ Y := fun ρ => by
    rw [Formula.eval_conj_iff, List.forall_mem_cons, List.forall_mem_cons, dstep.means, means,
      demands.means]
  rw [← body.quantify.eval_write_iff (fun _ => false), eval_quantify_iff
    (R := fun s t => T.Follows s t ∧ t ∈ T.members states ∧ t ∈ Y) bodyTrue, read_write]
  exact exists_congr fun t => and_left_comm

/-- What holds of the members of two lists one by one holds of all members alike. -/
theorem forall_mem_iff_of_forall₂ {R : α → β → Prop} {A : α → Prop} {B : β → Prop} {as : List α}
    {bs : List β} (h : List.Forall₂ R as bs) (hR : ∀ a b, R a b → (B b ↔ A a)) :
    (∀ b ∈ bs, B b) ↔ ∀ a ∈ as, A a := by
  induction h with
  | nil => simp
  | cons hab _ ih => rw [List.forall_mem_cons, List.forall_mem_cons, hR _ _ hab, ih]

/-- The states that find what they promise in successors of which more is demanded. -/
theorem builds_promisesMet (hT : T.Saturated)
    (hstates : T.Regards rebinds (· ∈ T.current.names) k states)
    {more : SymbolicState → Except Fault (List Formula)}
    (hmore : ∀ n, k ≤ n → ∃ fs, more (T.successor n) = .ok fs ∧ T.Demands rebinds n fs Y) :
    Builds (T.promisesMet states T.current more : Run σ (List Formula)) k fun fs n =>
      (∀ f ∈ fs, T.Regards rebinds (· ∈ T.current.names) n f) ∧
        ∀ s, (∀ f ∈ fs, s ∈ T.members f) ↔ ∀ g, .ex g ∈ T.elementary → T.Satisfies s (.ex g) →
          ∃ t ∈ T.members states, T.Follows s t ∧ t ∈ Y ∧ T.Satisfies t g := by
  have one : ∀ g ∈ T.promises, ∀ n, k ≤ n → Builds (σ := σ) (do
      let met ← T.successorIn states T.current fun next => do
        return (← more next) ++ [← next.value g]
      return .or (.not (← attempt (T.current.value (.ex g)))) met) n fun f n' =>
        T.Regards rebinds (· ∈ T.current.names) n' f ∧
          ∀ s, s ∈ T.members f ↔ (T.Satisfies s (.ex g) →
            ∃ t ∈ T.members states, T.Follows s t ∧ t ∈ Y ∧ T.Satisfies t g) := by
    intro g hg n hn
    have hex := mem_promises.1 hg
    obtain ⟨fs, hfs, demands⟩ := hmore n hn
    obtain ⟨a, ha, both⟩ := demands.exists_value (hT.keeps g hex)
    have inner : (do return (← more (T.successor n)) ++ [← (T.successor n).value g]) =
        (.ok (fs ++ [a]) : Except Fault (List Formula)) := by
      simp [hfs, ha, bind, Except.bind, pure, Except.pure]
    refine (builds_successorIn hT (hstates.later hn) inner both).bind fun met n' _ h => ?_
    obtain ⟨promised, hpromised, regards, means⟩ := exists_regards_value (hT.next hex)
    refine builds_attempt hpromised (builds_pure ⟨(regards _ _).not.or h.1, fun s => ?_⟩)
    rw [mem_members_or, mem_members_not, means, h.2, ← imp_iff_not_or]
    exact Iff.rfl
  refine (Builds.mapM (R := fun n g f => T.Regards rebinds (· ∈ T.current.names) n f ∧
    ∀ s, s ∈ T.members f ↔ (T.Satisfies s (.ex g) →
      ∃ t ∈ T.members states, T.Follows s t ∧ t ∈ Y ∧ T.Satisfies t g))
    (fun _ _ _ _ hk h => ⟨h.1.later hk, h.2⟩) one).mono fun fs n _ h => ⟨?_, fun s => ?_⟩
  · refine (forall_mem_iff_of_forall₂ (A := fun _ => True) h fun g f h => ?_).2 fun _ _ => trivial
    exact iff_of_true h.1 trivial
  · rw [forall_mem_iff_of_forall₂ h fun g f h => h.2 s]
    exact forall_congr' fun g => imp_congr_left mem_promises

/-! ## 4. Steps of the loops -/

/-- One step more of "until" on some path. -/
theorem builds_untilStep (hT : T.Saturated) (hp : T.Decides p) (hq : T.Decides q)
    (hstates : T.Regards rebinds (· ∈ T.current.names) k states)
    (hf : T.Regards rebinds (· ∈ T.current.names) k f) :
    Builds (T.untilStep states T.current p q f : Run σ Formula) k fun g n =>
      T.Regards rebinds (· ∈ T.current.names) n g ∧
        T.members g = T.pathStep (T.members states) p q (T.members f) := by
  obtain ⟨fs, hfs, demands⟩ := exists_demands hf (Nat.le_refl k)
  obtain ⟨now, hnow, nowRegards, nowMeans⟩ := exists_regards_value hq
  obtain ⟨still, hstill, stillRegards, stillMeans⟩ := exists_regards_value hp
  refine (builds_successorIn hT hstates hfs demands).bind fun step n _ h => ?_
  refine builds_attempt hnow (builds_attempt hstill (builds_pure ⟨?_, Set.ext fun s => ?_⟩))
  · exact (nowRegards _ _).or ((stillRegards _ _).and h.1)
  · rw [mem_members_or, mem_members_and, nowMeans, stillMeans, h.2]
    exact Iff.rfl

/-- One step more of "until" in some tree. -/
theorem builds_everyUntilStep (hT : T.Saturated) (hp : T.Decides p) (hq : T.Decides q)
    (hstates : T.Regards rebinds (· ∈ T.current.names) k states)
    (hf : T.Regards rebinds (· ∈ T.current.names) k f) :
    Builds (T.everyUntilStep states T.current p q f : Run σ Formula) k fun g n =>
      T.Regards rebinds (· ∈ T.current.names) n g ∧
        T.members g = T.treeStep (T.members states) p q (T.members f) := by
  obtain ⟨fs, hfs, demands⟩ := exists_demands hf (Nat.le_refl k)
  obtain ⟨now, hnow, nowRegards, nowMeans⟩ := exists_regards_value hq
  obtain ⟨still, hstill, stillRegards, stillMeans⟩ := exists_regards_value hp
  refine builds_attempt hstill ((builds_successorIn hT hstates hfs demands).bind
    fun step n hn h => ?_)
  refine (builds_promisesMet hT (hstates.later hn) fun n' hn' =>
    exists_demands hf (Nat.le_trans hn hn')).bind fun met n' hn' hmet => ?_
  refine builds_attempt hnow (builds_pure ⟨?_, Set.ext fun s => ?_⟩)
  · refine (nowRegards _ _).or (.conj fun g hg => ?_)
    rcases List.mem_cons.1 hg with rfl | hg
    · exact stillRegards _ _
    · rcases List.mem_cons.1 hg with rfl | hg
      · exact h.1.later hn'
      · exact hmet.1 g hg
  · rw [mem_members_or, mem_members_conj, List.forall_mem_cons, List.forall_mem_cons, nowMeans,
      stillMeans, h.2, hmet.2]
    exact Iff.rfl

/-! ## 5. Loops -/

variable {engine : Engine σ} {ready : σ → Prop} {sure : Prop} {rounds : Nat} {s : Session σ}

/-- The question whether the set of a formula has a member is answered with the truth. -/
theorem leads_query_of_reliable (he : engine.Reliable rebinds ready sure)
    (hf : T.Regards rebinds (· ∈ T.current.names) s.tickets.next f) (hs : ready s.engine) :
    Leads sure (query engine (T.current.quantify .existential f)) s fun b s' =>
      (b = true ↔ (T.members f).Nonempty) ∧ ready s'.engine := by
  obtain ⟨isQuery, binds⟩ := hf.isQuery
  refine (leads_query (he.draws _ _ _ isQuery binds hs)
    (fun h => he.answers h _ _ _ isQuery binds hs)
    fun h => he.persists h _ _ _ isQuery binds hs).mono fun b s' _ h => ⟨?_, ?_⟩
  · rw [he.truthful _ _ _ b isQuery binds hs h.1]
    exact isValid_quantify_iff hf.eval_iff
  · rw [h.2.state]
    exact he.stays _ _ _ isQuery binds hs

/-- **A loop that grows a set stops at the least fixpoint of its step.** -/
theorem leads_grow (he : engine.Reliable rebinds ready sure)
    {F : Set (State T.elementary) →o Set (State T.elementary)} {step : Formula → Run σ Formula}
    (hstep : ∀ n f, k ≤ n → T.Regards rebinds (· ∈ T.current.names) n f →
      Builds (step f) n fun g n' =>
        T.Regards rebinds (· ∈ T.current.names) n' g ∧ T.members g = F (T.members f))
    {fuel r : Nat} (hk : k ≤ s.tickets.next)
    (hf : T.Regards rebinds (· ∈ T.current.names) s.tickets.next f)
    (stage : T.members f = F^[r] ∅) (grown : ∀ i < r, ¬ F^[i + 1] ∅ ⊆ F^[i] ∅)
    (enough : sure → T.roundBound ≤ fuel + r) (hs : ready s.engine) :
    Leads sure (grow engine T.current step fuel r f) s fun res s' =>
      T.Regards rebinds (· ∈ T.current.names) s'.tickets.next res.1 ∧ T.members res.1 = F.lfp := by
  induction fuel generalizing r f s with
  | zero =>
    refine leads_throw fun hsure => ?_
    have bounded := T.lt_roundBound (le_card_of_grows grown)
    have := enough hsure
    omega
  | succ fuel ih =>
    rw [grow]
    refine leads_bind ((hstep _ f hk hf).leads sure) fun g s1 later h => ?_
    obtain ⟨⟨hg, grows⟩, same⟩ := h
    rw [stage, ← Function.iterate_succ_apply' F] at grows
    have hf := hf.later later.tickets
    refine leads_bind (leads_query_of_reliable he (hg.and hf.not) (same ▸ hs))
      fun b s2 later' h => ?_
    obtain ⟨answer, hs2⟩ := h
    have new : b = true ↔ ¬ F^[r + 1] ∅ ⊆ F^[r] ∅ := by
      rw [answer, Set.not_subset, ← grows, ← stage]
      exact exists_congr fun t => mem_members_and.trans (and_congr_right fun _ => mem_members_not)
    have drawn := Nat.le_trans later.tickets later'.tickets
    cases b with
    | true =>
      rw [if_pos rfl]
      refine ih (Nat.le_trans hk drawn) (hg.later later'.tickets) grows (fun i hi => ?_)
        (fun hsure => ?_) hs2
      · rcases Nat.lt_succ_iff_lt_or_eq.1 hi with hi | rfl
        · exact grown i hi
        · exact new.1 rfl
      · have := enough hsure
        omega
    | false =>
      rw [if_neg Bool.false_ne_true]
      refine leads_pure ⟨hf.later later'.tickets, stage.trans (lfp_eq_iterate ?_).symm⟩
      by_contra h
      cases new.2 h

/-- The loop for an "until", from the empty set on. -/
theorem leads_loop (he : engine.Reliable rebinds ready sure)
    {F : Set (State T.elementary) →o Set (State T.elementary)} {step : Formula → Run σ Formula}
    (hstep : ∀ n f, s.tickets.next ≤ n → T.Regards rebinds (· ∈ T.current.names) n f →
      Builds (step f) n fun g n' =>
        T.Regards rebinds (· ∈ T.current.names) n' g ∧ T.members g = F (T.members f))
    (enough : sure → T.roundBound ≤ rounds) (hs : ready s.engine) (op : BinaryOp) (p q : Formula) :
    Leads sure (do
        let (fragment, n) ← grow engine T.current step rounds 0 .falsity
        note (.converged op p q n)
        return fragment) s fun f _ =>
      ∀ ρ t, f.eval (T.current.write ρ t) = true ↔ t ∈ F.lfp := by
  have start : T.Regards rebinds (· ∈ T.current.names) s.tickets.next .falsity :=
    Regards.not (.atom (Or.inl rfl))
  refine leads_bind (leads_grow he hstep (Nat.le_refl _) start (r := 0)
    (Set.eq_empty_of_forall_notMem fun _ => not_mem_members_falsity)
    (fun i hi => absurd hi (Nat.not_lt_zero i)) enough hs) fun (f, m) s' _ h => ?_
  refine leads_bind (leads_note (P := fun _ _ => True) trivial) fun _ _ _ _ => leads_pure ?_
  intro ρ t
  rw [h.1.eval_write_iff, h.2]

/-- The loop for an existential "until" among the states of any formula. -/
theorem leads_untilFragment_among (he : engine.Reliable rebinds ready sure) (hT : T.Saturated)
    (hp : T.Decides p) (hq : T.Decides q)
    (hstates : T.Regards rebinds (· ∈ T.current.names) s.tickets.next states)
    (enough : sure → T.roundBound ≤ rounds) (hs : ready s.engine) :
    Leads sure (T.untilFragment engine rounds states T.current p q) s fun f _ =>
      ∀ ρ t, f.eval (T.current.write ρ t) = true ↔ t ∈ (T.pathStep (T.members states) p q).lfp :=
  leads_loop he (fun _ _ later hf => builds_untilStep hT hp hq (hstates.later later) hf) enough hs
    .eu p q

/-- The loop for a universal "until" among the states of any formula. -/
theorem leads_everyUntilFragment_among (he : engine.Reliable rebinds ready sure) (hT : T.Saturated)
    (hp : T.Decides p) (hq : T.Decides q)
    (hstates : T.Regards rebinds (· ∈ T.current.names) s.tickets.next states)
    (enough : sure → T.roundBound ≤ rounds) (hs : ready s.engine) :
    Leads sure (T.everyUntilFragment engine rounds states T.current p q) s fun f _ =>
      ∀ ρ t, f.eval (T.current.write ρ t) = true ↔ t ∈ (T.treeStep (T.members states) p q).lfp :=
  leads_loop he (fun _ _ later hf => builds_everyUntilStep hT hp hq (hstates.later later) hf) enough
    hs .au p q

end Tableau

end CtlTableau
