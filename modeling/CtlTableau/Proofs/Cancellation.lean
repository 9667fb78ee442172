import CtlTableau.Proofs.Courses
import CtlTableau.Proofs.Simulation

/-!
# Calling a check off stops it

A check polls its flag at the start of every round and before every question. It may be called off in
any of the loops, and the engine may have given any answer then, even the one that ends the loop or
the last round: no further question is admitted, and no call starts but the one whose poll had passed
before, if it was about to start. The question that a check asks in the end is its last poll; until
then there is no way to a verdict.

What else could end a check is told by `Lasts`, whatever the engine does: no step has a fault of its
own, and a loop that runs out of rounds has heard yes in each.

Main statement: `check_stops`.
-/

namespace CtlTableau.Tableau

open Run SymbolicState

variable {σ α β : Type} {T : Tableau}

namespace Dialogue

/-! ## 1. Ends of a course -/

/-- Whatever is answered, the dialogue stops for want of rounds only, when it has heard yes `n` times
    at least; when it comes to a result it has heard all but `m` of them. -/
def Lasts (T : Tableau) : Dialogue α → Nat → Nat → Prop
  | .done _, n, m => n ≤ m
  | .stop h, n, _ => h = .outOfRounds ∧ n = 0
  | .proceed d, n, m => d.Lasts T n m
  | .fresh k, n, m => ∀ i, (k (T.successor i)).Lasts T n m
  | .build _ d, n, m => d.Lasts T n m
  | .note _ d, n, m => d.Lasts T n m
  | .ask _ k, n, m => ∀ b, (k b).Lasts T (n - b.toNat) m
  | .meter k, n, m => ∀ i t, (k i t).Lasts T n m

variable {d : Dialogue α} {g : α → Dialogue β} {n n' m m' l : Nat}

theorem Lasts.mono (h : d.Lasts T n m) (hn : n' ≤ n) (hm : m ≤ m') : d.Lasts T n' m' := by
  induction d generalizing n n' with
  | done a => exact Nat.le_trans hn (Nat.le_trans h hm)
  | stop cause => exact ⟨h.1, Nat.le_zero.1 (h.2 ▸ hn)⟩
  | proceed d ih => exact ih h hn
  | fresh k ih => exact fun i => ih _ (h i) hn
  | build f d ih => exact ih h hn
  | note x d ih => exact ih h hn
  | ask f k ih => exact fun b => ih b (h b) (Nat.sub_le_sub_right hn b.toNat)
  | meter k ih => exact fun i t => ih i t (h i t) hn

/-- One dialogue after another. -/
theorem Lasts.bind (h : d.Lasts T n m) (hg : ∀ a, (g a).Lasts T m l) :
    (d >>= g).Lasts T n l := by
  show (d.bind g).Lasts T n l
  induction d generalizing n with
  | done a => exact (hg a).mono h (Nat.le_refl l)
  | stop cause => exact h
  | proceed d ih => exact ih h
  | fresh k ih => exact fun i => ih _ (h i)
  | build f d ih => exact ih h
  | note x d ih => exact ih h
  | ask f k ih => exact fun b => ih b (h b)
  | meter k ih => exact fun i t => ih i t (h i t)

theorem Lasts.mapM {as : List α} (hg : ∀ a ∈ as, (g a).Lasts T n n) :
    (as.mapM g).Lasts T n n := by
  induction as with
  | nil => exact Nat.le_refl n
  | cons a as ih =>
    rw [List.mapM_cons]
    refine (hg a List.mem_cons_self).bind fun b => ?_
    refine (ih fun a' ha' => hg a' (List.mem_cons_of_mem a ha')).bind fun bs => ?_
    exact Nat.le_refl n

/-- How a course may end early: with a fault that it was called off or that is an answer, or for
    want of rounds when the engine has said yes so many times. -/
structure Accounts (es : List Happening) (r : Except Halt α) (n : Nat) : Prop where
  fault : ∀ e, r = .error (.fault e) → e = .cancelled ∨ ∃ f flag, .returned f (.error e) flag ∈ es
  rounds : r = .error .outOfRounds → n ≤ es.countP Happening.isYes

variable {replies : Replies σ} {s s' : Session σ} {es : List Happening} {r : Except Halt α}

theorem Accounts.cons (h : Accounts es r n) (e : Happening) :
    Accounts (e :: es) r (n + e.isYes.toNat) where
  fault e' he := (h.fault e' he).imp_right fun ⟨f, flag, hm⟩ =>
    ⟨f, flag, List.mem_cons_of_mem e hm⟩
  rounds hr := by
    have heard := h.rounds hr
    rw [List.countP_cons]
    cases e.isYes <;> simpa using heard

theorem Accounts.mono (h : Accounts es r n) (hn : n' ≤ n) : Accounts es r n' :=
  ⟨h.fault, fun hr => Nat.le_trans hn (h.rounds hr)⟩

theorem accounts_halt {h : Halt} (halt : (Run.proceed : Run σ Unit).run.run s = (.error h, s)) :
    Accounts (α := α) [] (.error h) n := by
  obtain ⟨rfl, -⟩ := eq_of_halt halt
  exact ⟨fun e he => Or.inl (by cases he; rfl), nofun⟩

end Dialogue

/-- What `Dialogue.Lasts` says, from a point on. -/
def Point.Lasts (T : Tableau) : Point α → Nat → Nat → Prop
  | .before d, n, m => d.Lasts T n m
  | .asking _ _ k, n, m => ∀ b, (k b).Lasts T (n - b.toNat) m

open Dialogue in
/-- **A course has no faults of its own.** -/
theorem Course.accounts {x : Point α} (course : Course T replies x s es r s')
    (h : x.Lasts T n m) : Accounts es r n := by
  induction course generalizing n with
  | raise _ ih => exact (ih h).cons .raised
  | done => exact ⟨nofun, nofun⟩
  | stop cause =>
    obtain ⟨rfl, rfl⟩ := h
    exact ⟨nofun, fun _ => Nat.zero_le _⟩
  | proceed _ _ ih => exact ih h
  | off halt => exact accounts_halt halt
  | fresh made _ ih =>
    rw [run_freshState] at made
    cases made
    exact ih (h _)
  | build _ _ ih => exact ih h
  | note _ _ ih => exact ih h
  | pass _ _ ih => exact (ih h).cons _
  | refuse halt => exact accounts_halt halt
  | count _ _ ih => exact ih h
  | record _ _ ih => exact ih h
  | start _ ih => exact (ih h).cons _
  | reply _ _ _ ih => exact ((ih (h _)).cons _).mono (Nat.le_add_of_sub_le (Nat.le_refl _))
  | fail =>
    refine ⟨fun e he => ?_, nofun⟩
    cases he
    exact Or.inr ⟨_, _, List.mem_cons_self⟩
  | meter _ ih => exact ih (h _ _)

namespace Dialogue

/-! ## 2. The steps of a check -/

theorem lasts_newState {g : SymbolicState → Dialogue β}
    (h : ∀ i, (g (T.successor i)).Lasts T n m) : (newState >>= g).Lasts T n m := h

theorem lasts_attempt {x : Except Fault α} {a : α} (hx : x = .ok a) (h : (g a).Lasts T n m) :
    (attempt x >>= g).Lasts T n m := by
  subst hx
  exact h

theorem lasts_compute {g : Formula → Dialogue β} {x : Except Fault Formula}
    (hx : ∃ f, x = .ok f) (h : ∀ f, (g f).Lasts T n m) : (compute x >>= g).Lasts T n m := by
  obtain ⟨f, rfl⟩ := hx
  exact h f

theorem lasts_put (f : Formula) : (put f).Lasts T n n := Nat.le_refl n

/-- The value of a formula that the current state decides. -/
theorem lasts_value {g : Formula → Dialogue β} {p : Formula} (hp : T.Decides p)
    (h : ∀ f, (g f).Lasts T n m) : (compute (T.current.value p) >>= g).Lasts T n m := by
  obtain ⟨f, hf, -⟩ := exists_value hp 0
  exact lasts_compute ⟨f, hf⟩ h

variable {states f p q : Formula}

/-- Moving a formula to a successor. -/
theorem exists_moved (f : Formula) (i : Nat) :
    ∃ f', T.current.transfer (T.successor i) f = .ok f' :=
  ⟨_, transfer_eq (same_elementary i) f⟩

theorem exists_moved_list (f : Formula) (i : Nat) : ∃ gs,
    (do return [← T.current.transfer (T.successor i) f]) =
      (.ok gs : Except Fault (List Formula)) := by
  obtain ⟨f', hf'⟩ := exists_moved (T := T) f i
  exact ⟨[f'], by simp [hf', bind, Except.bind, pure, Except.pure]⟩

theorem lasts_successorIn (hT : T.Saturated)
    {more : SymbolicState → Except Fault (List Formula)}
    (hmore : ∀ i, ∃ gs, more (T.successor i) = .ok gs) :
    (successorIn T states T.current more).Lasts T n n := by
  refine lasts_newState fun i => ?_
  obtain ⟨step, hstep, -⟩ := exists_transition hT i
  obtain ⟨gs, hgs⟩ := hmore i
  refine lasts_compute ⟨step, hstep⟩ fun _ => lasts_compute (exists_moved states i) fun _ => ?_
  exact lasts_attempt hgs (lasts_put _)

theorem lasts_promisesMet (hT : T.Saturated)
    {more : SymbolicState → Except Fault (List Formula)}
    (hmore : ∀ i, ∃ gs, more (T.successor i) = .ok gs) :
    (promisesMet T states T.current more).Lasts T n n := by
  refine Lasts.mapM fun g hg => ?_
  have hex := mem_promises.1 hg
  refine (lasts_successorIn hT fun i => ?_).bind fun met => ?_
  · obtain ⟨gs, hgs⟩ := hmore i
    obtain ⟨a, ha, -⟩ := exists_successor_value (hT.keeps g hex) i
    exact ⟨gs ++ [a], by simp [hgs, ha, bind, Except.bind, pure, Except.pure]⟩
  · exact lasts_value (hT.next hex) fun _ => lasts_put _

/-! ## 3. The loops of a check -/

/-- A loop that grows a set takes another round when it hears yes. -/
theorem lasts_grow {step : Formula → Dialogue Formula} (hstep : ∀ f k, (step f).Lasts T k k)
    {fuel : Nat} (hn : n ≤ fuel) (i : Nat) (f : Formula) :
    (grow T.current step fuel i f).Lasts T n n := by
  induction fuel generalizing n i f with
  | zero => exact ⟨rfl, Nat.le_zero.1 hn⟩
  | succ fuel ih =>
    rw [grow]
    refine (hstep f n).bind fun next b => ?_
    cases b with
    | true =>
      exact (ih (Nat.sub_le_of_le_add hn) (i + 1) next).mono (Nat.le_refl _) (Nat.sub_le n 1)
    | false => exact Nat.le_refl n

theorem lasts_fragment {step : Formula → Dialogue Formula} (hstep : ∀ f k, (step f).Lasts T k k)
    {rounds : Nat} (hn : n ≤ rounds) (op : BinaryOp) (p q : Formula) :
    (fragment rounds T.current op p q step).Lasts T n n :=
  (lasts_grow hstep hn 0 .falsity).bind fun _ => Nat.le_refl n

theorem lasts_untilStep (hT : T.Saturated) (hp : T.Decides p) (hq : T.Decides q) :
    (untilStep T states T.current p q f).Lasts T n n :=
  (lasts_successorIn hT (exists_moved_list f)).bind fun _ =>
    lasts_value hq fun _ => lasts_value hp fun _ => lasts_put _

theorem lasts_everyUntilStep (hT : T.Saturated) (hp : T.Decides p) (hq : T.Decides q) :
    (everyUntilStep T states T.current p q f).Lasts T n n := by
  refine lasts_value hp fun _ => ?_
  refine (lasts_successorIn hT (exists_moved_list f)).bind fun _ => ?_
  refine (lasts_promisesMet hT (exists_moved_list f)).bind fun _ => ?_
  exact lasts_value hq fun _ => lasts_put _

theorem lasts_untilsMet (hT : T.Saturated) {rounds : Nat} (hn : n ≤ rounds) :
    (untilsMet T rounds states T.current).Lasts T n n := by
  refine (Lasts.mapM fun (p, q) hr => ?_).bind fun _ => lasts_put _
  have hex := mem_untils.1 hr
  obtain ⟨hp, hq⟩ := hT.until hex
  refine (lasts_fragment (fun _ _ => lasts_untilStep hT hp hq) hn .eu p q).bind fun _ => ?_
  exact lasts_value (hT.next hex) fun _ => lasts_value hp fun _ => lasts_put _

theorem lasts_everyUntilsMet (hT : T.Saturated) {rounds : Nat} (hn : n ≤ rounds) :
    (everyUntilsMet T rounds states T.current).Lasts T n n := by
  refine (Lasts.mapM fun (p, q) hr => ?_).bind fun _ => lasts_put _
  have hex := mem_releases.1 hr
  obtain ⟨hp, hq⟩ := hT.release hex
  refine (lasts_fragment (fun _ _ => lasts_everyUntilStep hT hp.negate hq.negate) hn .au
    p.negate q.negate).bind fun _ => ?_
  exact lasts_value (hT.next hex) fun _ => lasts_value hp fun _ => lasts_put _

theorem lasts_refined (hT : T.Saturated) {rounds : Nat} (hn : n ≤ rounds) :
    (refined T rounds T.current states).Lasts T n n := by
  refine (lasts_successorIn hT fun _ => ⟨[], rfl⟩).bind fun _ => ?_
  refine (lasts_promisesMet hT fun _ => ⟨[], rfl⟩).bind fun _ => ?_
  refine (lasts_untilsMet hT hn).bind fun _ => (lasts_everyUntilsMet hT hn).bind fun _ => ?_
  exact lasts_put _

/-- A round asks whether it removed a state. -/
theorem lasts_round (hT : T.Saturated) {rounds : Nat} (hn : n ≤ rounds) (number : Nat)
    {g : Formula × Bool → Dialogue β}
    (h : ∀ rest removed, (g (rest, removed)).Lasts T (n - removed.toNat) m) :
    (round T rounds T.current number states >>= g).Lasts T n m := by
  simp only [round, bind_assoc]
  exact (lasts_refined hT hn).bind h

theorem lasts_refine (hT : T.Saturated) {rounds fuel : Nat} (hr : n ≤ rounds) (hn : n ≤ fuel)
    (i : Nat) (states : Formula) : (refine T rounds T.current fuel i states).Lasts T n n := by
  induction fuel generalizing n i states with
  | zero => exact ⟨rfl, Nat.le_zero.1 hn⟩
  | succ fuel ih =>
    rw [refine]
    refine lasts_round hT hr (i + 1) fun rest removed => ?_
    cases removed with
    | true =>
      exact (ih (Nat.le_trans (Nat.sub_le n 1) hr) (Nat.sub_le_of_le_add hn) (i + 1) rest).mono
        (Nat.le_refl _) (Nat.sub_le n 1)
    | false => exact Nat.le_refl n

/-! ## 4. The end of a check -/

/-- What a check does when its rounds are over. -/
def conclude (T : Tableau) (states : Formula) (iterations : Nat) : Dialogue Report := do
  write (.fixpoint iterations)
  let value ← compute (T.current.value T.normalized)
  let satisfiable ← inquire (T.current.quantify .existential (.and states value))
  let report ← Dialogue.meter fun queries elapsed =>
    .done (⟨satisfiable, iterations, queries, elapsed⟩ : Report)
  write (.decided T.normalized report)
  return report

theorem check_eq (T : Tableau) (rounds : Nat) : check T rounds =
    refine T rounds T.current rounds 0 .truth >>= fun r => conclude T r.1 r.2 := by
  rw [check, T.make_stateStem]
  rfl

theorem lasts_check (hT : T.Saturated) (rounds : Nat) :
    (check T rounds).Lasts T rounds rounds := by
  rw [check_eq]
  refine (lasts_refine hT (Nat.le_refl _) (Nat.le_refl _) 0 .truth).bind fun r => ?_
  exact lasts_value hT.decides fun _ _ _ _ => Nat.sub_le rounds _

/-- On the way to a report the flag is down until the last question is admitted, and this is the only
    one that is admitted then. -/
theorem Course.of_conclude {replies : Replies σ} {s s' : Session σ} {es : List Happening}
    {value : Formula} {i : Nat} {report : Report}
    (hvalue : T.current.value T.normalized = .ok value)
    (course : Course T replies (.before (conclude T states i)) s es (.ok report) s') :
    s.cancelled = false ∧ ∃ es',
      es = .admitted (T.current.quantify .existential (.and states value)) :: es' ∧
        ∀ e ∈ es', e.isAdmission = false := by
  -- three steps lead to the question, and each passes an interruption on to its poll
  have steps : conclude T states i = .note (.fixpoint i) (.build value
      (.build (T.current.quantify .existential (.and states value))
        (.ask (T.current.quantify .existential (.and states value)) fun b => .meter fun n t =>
          .note (.decided T.normalized ⟨b, i, n, t⟩) (.done ⟨b, i, n, t⟩)))) := by
    rw [conclude, hvalue]
    rfl
  have up : ∀ {x : Point Report} {s : Session σ} {es : List Happening},
      Course T replies x { s with cancelled := true } es (.ok report) s' → ¬ x.Polls :=
    fun course polls => course.ne_ok_of_polls polls rfl report rfl
  rw [steps] at course
  cases course with
  | raise rest => exact (up rest trivial).elim
  | note noted rest =>
    cases rest with
    | raise rest => exact (up rest trivial).elim
    | build _ rest =>
      cases rest with
      | raise rest => exact (up rest trivial).elim
      | build _ rest =>
        cases rest with
        | raise rest => exact (up rest trivial).elim
        | pass go rest =>
          have down := not_cancelled_of_proceed go
          refine ⟨(cancelled_of_noted noted).1.symm.trans down, _, rfl, ?_⟩
          exact rest.of_silent fun _ _ _ => trivial

end Dialogue

/-! ## 5. Calling a check off -/

/-- The check asks this question after these events because its rounds are over: whether a state of
    the formula is left. -/
def Terminal (T : Tableau) (replies : Replies σ) (rounds : Nat) (s : Session σ)
    (es : List Happening) (f : Formula) : Prop :=
  ∃ states iterations value s',
    Course T replies (.before (Dialogue.refine T rounds T.current rounds 0 .truth)) (restarted s) es
      (.ok (states, iterations)) s' ∧
    T.current.value T.normalized = .ok value ∧
      f = T.current.quantify .existential (.and states value)

/-- The last question of the check is admitted in these events. -/
def Concluding (T : Tableau) (replies : Replies σ) (rounds : Nat) (s : Session σ)
    (es : List Happening) : Prop :=
  ∃ es₀ f rest, es = es₀ ++ .admitted f :: rest ∧ T.Terminal replies rounds s es₀ f

variable {replies : Replies σ} {rounds : Nat} {s s' : Session σ} {es : List Happening}

/-- A check is the course of its dialogue in which nobody else calls it off. -/
theorem run_checkWithin_iff {engine : Engine σ} {r : Except Halt Report} :
    (T.checkWithin engine rounds).run.run s = (r, s') ↔ ∃ es, .raised ∉ es ∧
      Course T engine.replies (.before (Dialogue.check T rounds)) (restarted s) es r s' := by
  rw [run_checkWithin]
  exact course_iff_run

/-- A check with a report was not called off before its last question was admitted. -/
theorem not_raised_of_report (hT : T.Saturated) {report : Report}
    (course : Course T replies (.before (Dialogue.check T rounds)) (restarted s) es (.ok report) s') :
    s.cancelled = false ∧ ∀ es₁ e es₂, es = es₁ ++ e :: es₂ → e.raises = true →
      T.Concluding replies rounds s es₁ := by
  rw [Dialogue.check_eq] at course
  obtain ⟨_, e, -⟩ | ⟨⟨states, iterations⟩, s₁, before, rest, rfl, refining, concluding⟩ :=
    course.divides (y := .before (Dialogue.refine T rounds T.current rounds 0 .truth))
  · cases e
  obtain ⟨value, hvalue, -⟩ := exists_value hT.decides 0
  obtain ⟨down, after, rfl, -⟩ := Dialogue.Course.of_conclude hvalue concluding
  -- so the flag was down all the time
  have quiet : ¬ (s.cancelled = true ∨ ∃ e ∈ before, e.raises = true) := by
    rw [← show (restarted s).cancelled = s.cancelled from rfl, ← refining.cancelled_iff, down]
    exact Bool.false_ne_true
  obtain ⟨start, quiet⟩ := not_or.1 quiet
  refine ⟨Bool.eq_false_iff.2 start, fun es₁ e es₂ split up => ?_⟩
  have terminal : T.Terminal replies rounds s before
      (T.current.quantify .existential (.and states value)) :=
    ⟨states, iterations, value, s₁, refining, hvalue, rfl⟩
  rcases List.append_eq_append_iff.1 split with ⟨between, rfl, h⟩ | ⟨between, rfl, h⟩
  · cases between with
    | nil =>
      cases h
      cases up
    | cons x between =>
      cases h
      exact ⟨before, _, between, rfl, terminal⟩
  · cases between with
    | nil =>
      cases h
      cases up
    | cons x between =>
      -- nothing in the rounds raised the flag
      cases h
      exact absurd ⟨_, List.mem_append_right _ List.mem_cons_self, up⟩ quiet

/-- **Calling a check off stops it.** A check with any engine is the course of its dialogue in which
    nobody else calls it off; and in every course, whatever the engine replies and whenever the flag
    is raised, no poll for a question passes from then on. Every call follows a poll of its own, so
    none starts but one that was about to start; after that none does, and none at all if the flag was
    raised during a call or was up before. If it was up before, or was raised before the last question
    of the check was admitted, and if no call was answered with another fault, then the check ends
    with this: it was called off. (A loop that hears yes in every round may run out of rounds
    before.) -/
theorem check_stops {f : Formula} (hT : ofFormula f = .ok T) (rounds : Nat) (s : Session σ) :
    (∀ (engine : Engine σ) r s', (T.checkWithin engine rounds).run.run s = (r, s') ↔
      ∃ es, .raised ∉ es ∧
        Course T engine.replies (.before (Dialogue.check T rounds)) (restarted s) es r s') ∧
    ∀ (replies : Replies σ) es r s',
      Course T replies (.before (Dialogue.check T rounds)) (restarted s) es r s' →
      Stops s.cancelled es ∧
      ((∀ f e flag, .returned f (.error e) flag ∈ es → e = .cancelled) →
        es.countP Happening.isYes < rounds →
        (s.cancelled = true ∨ ∃ es₁ e es₂, es = es₁ ++ e :: es₂ ∧ e.raises = true ∧
          ¬ T.Concluding replies rounds s es₁) →
        r = .error (.fault .cancelled)) := by
  have hsat := (saturated_of_ofFormula (isTemporal_of_ofFormula hT) hT).2
  refine ⟨fun engine r s' => run_checkWithin_iff, fun replies es r s' course => ⟨course.stops,
    fun answers enough raised => ?_⟩⟩
  have accounts := course.accounts (show Point.Lasts T (.before _) rounds rounds from
    Dialogue.lasts_check hsat rounds)
  cases r with
  | ok report =>
    obtain ⟨down, concluding⟩ := not_raised_of_report hsat course
    rcases raised with up | ⟨es₁, e, es₂, split, up, early⟩
    · rw [up] at down
      cases down
    · exact absurd (concluding es₁ e es₂ split up) early
  | error h =>
    cases h with
    | fault e =>
      rcases accounts.fault e rfl with rfl | ⟨f, flag, h⟩
      · rfl
      · rw [answers f e flag h]
    | outOfRounds => exact absurd (accounts.rounds rfl) (Nat.not_le_of_lt enough)

/-- A check with an engine that never says yes does not run out of rounds. -/
theorem ne_outOfRounds {f : Formula} (hT : ofFormula f = .ok T) {engine : Engine σ}
    (never : ∀ f t c u, (engine.decide f t c u).answer ≠ .ok true) (hr : 0 < rounds) :
    ((T.checkWithin engine rounds).run.run s).1 ≠ .error .outOfRounds := by
  have hsat := (saturated_of_ofFormula (isTemporal_of_ofFormula hT) hT).2
  obtain ⟨es, -, course⟩ := run_checkWithin_iff.1 (show (T.checkWithin engine rounds).run.run s =
    (((T.checkWithin engine rounds).run.run s).1, ((T.checkWithin engine rounds).run.run s).2)
    from rfl)
  intro short
  have heard := (course.accounts (show Point.Lasts T (.before _) rounds rounds from
    Dialogue.lasts_check hsat rounds)).rounds short
  rw [course.countP_isYes fun f t c u _ possible => possible ▸ never f t c u] at heard
  omega

/-- An engine that finds nothing, and calls the run off. -/
def quitter : Engine Unit where
  decide _ tickets _ s := { answer := .ok false, engine := s, cancelled := true, tickets }

/-- The check with this engine admits one question. -/
theorem exists_quitter_course : ∃ es r s',
    (atLastTableau.check quitter).run.run { engine := () } = (r, s') ∧ .raised ∉ es ∧
    Course atLastTableau quitter.replies
      (.before (Dialogue.check atLastTableau atLastTableau.roundBound)) (restarted { engine := () })
      es r s' ∧ es.countP Happening.isAdmission = 1 := by
  have queries : ((atLastTableau.check quitter).run.run { engine := () }).2.queries = 1 := by
    decide +kernel
  rcases hrun : ((atLastTableau.check quitter).run.run { engine := () } :
    Except Halt Report × Session Unit) with ⟨r, s'⟩
  rw [hrun] at queries
  obtain ⟨es, quiet, course⟩ := run_checkWithin_iff.1 hrun
  refine ⟨es, r, s', rfl, quiet, course, ?_⟩
  have counted : s'.queries = 0 + 0 + es.countP Happening.isAdmission := course.queries_eq
  have one : s'.queries = 1 := queries
  omega

/-- The first question of the check, which looks for the end of a loop, is called off: the answer
    ends the loop, but the check puts no other question, and has no report. -/
theorem check_stops_atLast :
    ((atLastTableau.check quitter).run.run { engine := () }).1 = .error (.fault .cancelled) ∧
    ((atLastTableau.check quitter).run.run { engine := () }).2.queries = 1 := by
  have calledOff : ((atLastTableau.check quitter).run.run { engine := () }).2.cancelled = true := by
    decide +kernel
  have refining : ((atLastTableau.refine quitter atLastTableau.roundBound atLastTableau.current
      atLastTableau.roundBound 0 .truth).run.run (restarted { engine := () })).2.queries = 1 := by
    decide +kernel
  obtain ⟨es, r, s', hrun, quiet, course, one⟩ := exists_quitter_course
  rw [hrun] at calledOff ⊢
  obtain ⟨-, stops⟩ := check_stops ofFormula_atLast atLastTableau.roundBound { engine := () }
  obtain ⟨e, mem, up⟩ := (course.cancelled_iff.1 calledOff).resolve_left Bool.false_ne_true
  obtain ⟨es₁, es₂, split⟩ := List.append_of_mem mem
  refine ⟨(stops _ es r s' course).2 (fun f e flag h => ?_) ?_ (.inr ⟨es₁, e, es₂, split, up, ?_⟩),
    course.queries_eq.trans (by rw [one]; rfl)⟩
  · obtain ⟨_, _, _, _, rfl, answer⟩ := course.possible h
    cases answer
  · rw [course.countP_isYes fun _ _ _ _ _ possible => by rw [possible]; exact nofun]
    decide
  · -- the rounds are not over without a question
    rintro ⟨es₀, f, rest, rfl, states, iterations, value, s₁, refined, -⟩
    rw [split, List.countP_append, List.countP_append, List.countP_cons_of_pos rfl] at one
    have early : .raised ∉ es₀ := fun h => quiet (by simp [split, h])
    have hrefined := refined.run_eq early
    have none := refined.queries_eq
    rw [Point.run, Dialogue.run_refine] at hrefined
    rw [hrefined] at refining
    have asked : s₁.queries = 1 := refining
    have unasked : s₁.queries = 0 + 0 + es₀.countP Happening.isAdmission := none
    omega

/-- A call may start after the flag was raised, if it was raised after the poll. -/
theorem call_after_raise_atLast : ¬ ∀ es r s',
    Course atLastTableau quitter.replies
      (.before (Dialogue.check atLastTableau atLastTableau.roundBound))
      (restarted { engine := () }) es r s' →
    es.Pairwise fun e e' => e.raises = true → e'.isStart = false := by
  intro none
  obtain ⟨es, _, _, -, -, course, one⟩ := exists_quitter_course
  obtain ⟨e, mem, admission⟩ := List.countP_pos_iff.1 (Nat.lt_of_lt_of_eq Nat.one_pos one.symm)
  obtain ⟨es₁, es₂, split⟩ := List.append_of_mem mem
  cases e with
  | admitted f =>
    obtain ⟨es', r', s', late⟩ := course.exists_late split
    have apart := (List.pairwise_append.1 (none _ _ _ late)).2.1
    have raised := (List.pairwise_cons.1 (List.pairwise_cons.1 apart).2).1
    cases raised (.started f true) List.mem_cons_self rfl
  | _ => cases admission

end CtlTableau.Tableau
