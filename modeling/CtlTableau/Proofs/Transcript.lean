import CtlTableau.Proofs.Dialogue

/-!
# The dialogue of a check

Every function of a run as a dialogue, up to the whole check (`Dialogue.check`). Running the dialogue
with an engine is the function itself (`run_check` and the lemmas before it), so whatever is found
out about the dialogue holds for runs with all engines.
-/

namespace CtlTableau.Tableau.Dialogue

variable {σ α : Type} (T : Tableau) (engine : Engine σ)

/-! ## 1. Single steps -/

/-- Ends with a fault if there is one. -/
def attempt : Except Fault α → Dialogue α
  | .ok a => .done a
  | .error e => .stop (.fault e)

/-- Goes on unless the run was called off. -/
def poll : Dialogue Unit := .proceed (.done ())

/-- Makes a successor state. -/
def newState : Dialogue SymbolicState := .fresh .done

/-- Notes an event down. -/
def write (r : Record) : Dialogue Unit := .note r (.done ())

/-- Puts a formula together. -/
def put (f : Formula) : Dialogue Formula := .build f (.done f)

/-- Puts a formula together that may not exist. -/
def compute (f : Except Fault Formula) : Dialogue Formula := attempt f >>= put

/-- Puts a question together and asks it. -/
def inquire (f : Formula) : Dialogue Bool := .build f (.ask f .done)

theorem run_attempt (m : Except Fault α) : (attempt m).run T engine = Run.attempt m := by
  cases m <;> rfl

theorem run_poll : poll.run T engine = Run.proceed := bind_pure _

theorem run_newState : newState.run T engine = T.freshState := bind_pure _

theorem run_write (r : Record) : (write r).run T engine = Run.note r := bind_pure _

theorem run_put (f : Formula) : (put f).run T engine = pure f := rfl

theorem run_compute (m : Except Fault Formula) : (compute m).run T engine = Run.attempt m := by
  cases m <;> rfl

theorem run_inquire (f : Formula) : (inquire f).run T engine = Run.query engine f :=
  bind_pure _

/-! ## 2. Successors -/

/-- That `v` has a successor among the states, with more to be said of it. -/
def successorIn (states : Formula) (v : SymbolicState)
    (more : SymbolicState → Except Fault (List Formula)) : Dialogue Formula := do
  let next ← newState
  let step ← compute (SymbolicState.transition T.elementary v next)
  let among ← compute (v.transfer next states)
  let others ← attempt (more next)
  put (next.quantify .existential (.conj (step :: among :: others)))

/-- That every promise of `v` is met by a successor among the states. -/
def promisesMet (states : Formula) (v : SymbolicState)
    (more : SymbolicState → Except Fault (List Formula)) : Dialogue (List Formula) :=
  T.promises.mapM fun g => do
    let met ← successorIn T states v fun next => do return (← more next) ++ [← next.value g]
    let promised ← compute (v.value (.ex g))
    put (.or (.not promised) met)

theorem run_successorIn (states : Formula) (v : SymbolicState)
    (more : SymbolicState → Except Fault (List Formula)) :
    (successorIn T states v more).run T engine = T.successorIn states v more := by
  simp only [successorIn, run_bind, run_newState, run_compute, run_attempt, run_put]
  rfl

theorem run_promisesMet (states : Formula) (v : SymbolicState)
    (more : SymbolicState → Except Fault (List Formula)) :
    (promisesMet T states v more).run T engine = T.promisesMet states v more := by
  simp only [promisesMet, run_mapM, run_bind, run_compute, run_put, run_successorIn]
  rfl

/-! ## 3. Eventualities -/

/-- Grows a set of states by a step until the engine finds nothing new. -/
def grow (v : SymbolicState) (step : Formula → Dialogue Formula) :
    Nat → Nat → Formula → Dialogue (Formula × Nat)
  | 0, _, _ => .stop .outOfRounds
  | fuel + 1, rounds, fragment => do
    let next ← step fragment
    if ← inquire (v.quantify .existential (.and next (.not fragment))) then
      grow v step fuel (rounds + 1) next
    else return (fragment, rounds + 1)

/-- Grows a set of states from the empty one, and notes down when this came to its end. -/
def fragment (rounds : Nat) (v : SymbolicState) (op : BinaryOp) (p q : Formula)
    (step : Formula → Dialogue Formula) : Dialogue Formula := do
  let (f, n) ← grow v step rounds 0 .falsity
  write (.converged op p q n)
  return f

/-- One step more of an existential "until". -/
def untilStep (states : Formula) (v : SymbolicState) (p q fragment : Formula) :
    Dialogue Formula := do
  let step ← successorIn T states v fun next => do return [← v.transfer next fragment]
  let now ← compute (v.value q)
  let still ← compute (v.value p)
  put (.or now (.and still step))

/-- One step more of a universal "until". -/
def everyUntilStep (states : Formula) (v : SymbolicState) (p q fragment : Formula) :
    Dialogue Formula := do
  let inFragment (next : SymbolicState) : Except Fault (List Formula) := do
    return [← v.transfer next fragment]
  let still ← compute (v.value p)
  let step ← successorIn T states v inFragment
  let met ← promisesMet T states v inFragment
  let now ← compute (v.value q)
  put (.or now (.conj (still :: step :: met)))

/-- That every existential "until" promised by `v` is met. -/
def untilsMet (rounds : Nat) (states : Formula) (v : SymbolicState) : Dialogue Formula := do
  let terms ← T.untils.mapM fun (p, q) => do
    let f ← fragment rounds v .eu p q (untilStep T states v p q)
    let denied ← compute (v.value (.ex (.eu p q)))
    let still ← compute (v.value p)
    put (.disj [.not denied, .not still, f])
  put (.conj terms)

/-- That every universal "until" promised by `v` is met. -/
def everyUntilsMet (rounds : Nat) (states : Formula) (v : SymbolicState) : Dialogue Formula := do
  let terms ← T.releases.mapM fun (p, q) => do
    let f ← fragment rounds v .au p.negate q.negate
      (everyUntilStep T states v p.negate q.negate)
    let released ← compute (v.value (.ex (.er p q)))
    let still ← compute (v.value p)
    put (.disj [released, still, f])
  put (.conj terms)

theorem run_grow (v : SymbolicState) (step : Formula → Dialogue Formula) (fuel n : Nat)
    (f : Formula) : (grow v step fuel n f).run T engine =
      Tableau.grow engine v (fun f => (step f).run T engine) fuel n f := by
  induction fuel generalizing n f with
  | zero => rfl
  | succ fuel ih =>
    rw [grow, run_bind, Tableau.grow]
    refine bind_congr fun next => ?_
    rw [run_bind, run_inquire]
    refine bind_congr fun b => ?_
    cases b with
    | true => exact ih (n + 1) next
    | false => rfl

theorem run_fragment (rounds : Nat) (v : SymbolicState) (op : BinaryOp) (p q : Formula)
    (step : Formula → Dialogue Formula) : (fragment rounds v op p q step).run T engine = (do
      let (f, n) ← Tableau.grow engine v (fun f => (step f).run T engine) rounds 0 .falsity
      Run.note (.converged op p q n)
      return f) := by
  simp only [fragment, run_bind, run_grow, run_write]
  rfl

theorem run_untilStep (states : Formula) (v : SymbolicState) (p q f : Formula) :
    (untilStep T states v p q f).run T engine = T.untilStep states v p q f := by
  simp only [untilStep, run_bind, run_compute, run_put, run_successorIn]
  rfl

theorem run_everyUntilStep (states : Formula) (v : SymbolicState) (p q f : Formula) :
    (everyUntilStep T states v p q f).run T engine = T.everyUntilStep states v p q f := by
  simp only [everyUntilStep, run_bind, run_compute, run_put, run_successorIn, run_promisesMet]
  rfl

theorem run_untilsMet (rounds : Nat) (states : Formula) (v : SymbolicState) :
    (untilsMet T rounds states v).run T engine = T.untilsMet engine rounds states v := by
  simp only [untilsMet, run_bind, run_mapM, run_fragment, run_compute, run_put, run_untilStep]
  rfl

theorem run_everyUntilsMet (rounds : Nat) (states : Formula) (v : SymbolicState) :
    (everyUntilsMet T rounds states v).run T engine =
      T.everyUntilsMet engine rounds states v := by
  simp only [everyUntilsMet, run_bind, run_mapM, run_fragment, run_compute, run_put,
    run_everyUntilStep]
  rfl

/-! ## 4. Rounds and checks -/

/-- The states that stay in a round. -/
def refined (rounds : Nat) (v : SymbolicState) (states : Formula) : Dialogue Formula := do
  let succeeded ← successorIn T states v fun _ => return []
  let promised ← promisesMet T states v fun _ => return []
  let untils ← untilsMet T rounds states v
  let everyUntils ← everyUntilsMet T rounds states v
  put (.conj [states, succeeded, .conj promised, untils, everyUntils])

/-- A round on the states that are left. -/
def round (rounds : Nat) (v : SymbolicState) (number : Nat) (states : Formula) :
    Dialogue (Formula × Bool) := do
  poll
  write (.iteration number states.size)
  let rest ← refined T rounds v states
  let removed ← inquire (v.quantify .existential (.and states (.not rest)))
  return (rest, removed)

/-- Rounds until the engine finds no state removed. -/
def refine (rounds : Nat) (v : SymbolicState) :
    Nat → Nat → Formula → Dialogue (Formula × Nat)
  | 0, _, _ => .stop .outOfRounds
  | fuel + 1, iterations, states => do
    let (rest, removed) ← round T rounds v (iterations + 1) states
    if removed then refine rounds v fuel (iterations + 1) rest
    else return (rest, iterations + 1)

/-- A check, after everything was set to the start. -/
def check (rounds : Nat) : Dialogue Report := do
  let v ← attempt (SymbolicState.make T.elementary stateStem)
  let (states, iterations) ← refine T rounds v rounds 0 .truth
  write (.fixpoint iterations)
  let value ← compute (v.value T.normalized)
  let satisfiable ← inquire (v.quantify .existential (.and states value))
  let report ← Dialogue.meter fun queries elapsed =>
    .done (⟨satisfiable, iterations, queries, elapsed⟩ : Report)
  write (.decided T.normalized report)
  return report

theorem run_refined (rounds : Nat) (v : SymbolicState) (states : Formula) :
    (refined T rounds v states).run T engine = T.refined engine rounds v states := by
  simp only [refined, run_bind, run_put, run_successorIn, run_promisesMet, run_untilsMet,
    run_everyUntilsMet]
  rfl

theorem run_round (rounds : Nat) (v : SymbolicState) (number : Nat) (states : Formula) :
    (round T rounds v number states).run T engine = T.round engine rounds v number states := by
  simp only [round, run_bind, run_poll, run_write, run_refined, run_inquire]
  rfl

theorem run_refine (rounds : Nat) (v : SymbolicState) (fuel n : Nat) (states : Formula) :
    (refine T rounds v fuel n states).run T engine =
      T.refine engine rounds v fuel n states := by
  induction fuel generalizing n states with
  | zero => rfl
  | succ fuel ih =>
    rw [refine, run_bind, run_round, Tableau.refine]
    refine bind_congr fun (rest, removed) => ?_
    cases removed with
    | true => exact ih (n + 1) rest
    | false => rfl

/-- **The run of the dialogue is the check.** -/
theorem run_check (rounds : Nat) :
    T.checkWithin engine rounds = restart >>= fun _ => (check T rounds).run T engine := by
  simp only [check, run_bind, run_attempt, run_refine, run_write, run_compute, run_inquire]
  rfl

end CtlTableau.Tableau.Dialogue
