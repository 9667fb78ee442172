import CtlTableau.Tableau

/-!
# Refining a tableau

A run starts with all states and removes, round by round, those that cannot belong to a model made
of the states that are left. A state stays in a round if

1. it has a successor that is left,
2. every "some next" formula that it holds is met by a successor that is left,
3. every existential "until" that it promises to continue is met at the end of a finite path of
   states that are left,
4. every universal "until" that it promises to continue (it denies the matching "release") is met on
   all paths of some finite tree of states that are left, and in this tree every node has the
   successors that it holds "some next" formulas about.

Sets of states are formulas over the variables of one symbolic state `v`; a successor is a state with
fresh variables, quantified away. When a round removes nothing, the formula is satisfiable if and
only if a state is left at which it holds.

The loops end when the engine says that nothing changed. For an engine that answers with the truth
the number of states bounds the rounds (`Tableau.roundBound`); for other engines nothing does, so the
number of rounds that a loop may take is an argument of a run.
-/

namespace CtlTableau.Tableau

open Run

variable {σ : Type}

/-- What the variables of the states that are refined are named after. -/
def stateStem : String := "v"

/-- What the variables of a successor state are named after, before a drawn number. -/
def successorStem : String := "succ"

/-! ## 1. Successors -/

/-- A state whose variables occur nowhere else. -/
def freshState (T : Tableau) : Run σ SymbolicState := do
  let n ← draw
  attempt (SymbolicState.make T.elementary (successorStem ++ toString n))

/-- That `v` has a successor among the states, with more to be said of it. -/
def successorIn (T : Tableau) (states : Formula) (v : SymbolicState)
    (more : SymbolicState → Except Fault (List Formula)) : Run σ Formula := do
  let next ← T.freshState
  let step ← attempt (SymbolicState.transition T.elementary v next)
  let among ← attempt (v.transfer next states)
  let others ← attempt (more next)
  return next.quantify .existential (.conj (step :: among :: others))

/-- What the members of the closure promise of a successor. -/
def promises (T : Tableau) : List Formula := SymbolicState.promises T.elementary

/-- The existential "until" formulas that are promised of a successor. -/
def untils (T : Tableau) : List (Formula × Formula) :=
  T.promises.filterMap fun
    | .eu p q => some (p, q)
    | _ => none

/-- The existential "release" formulas that are promised of a successor. -/
def releases (T : Tableau) : List (Formula × Formula) :=
  T.promises.filterMap fun
    | .er p q => some (p, q)
    | _ => none

/-- That every promise of `v` is met by a successor among the states, where more is to be said of
    the successor besides. -/
def promisesMet (T : Tableau) (states : Formula) (v : SymbolicState)
    (more : SymbolicState → Except Fault (List Formula)) : Run σ (List Formula) :=
  T.promises.mapM fun g => do
    let met ← T.successorIn states v fun next => do return (← more next) ++ [← next.value g]
    return .or (.not (← attempt (v.value (.ex g)))) met

/-! ## 2. Eventualities -/

/-- Grows a set of states from the empty one by a step until the engine finds nothing new. The result
    is the last set that was not seen to grow, with the number of rounds. -/
def grow (engine : Engine σ) (v : SymbolicState) (step : Formula → Run σ Formula) :
    Nat → Nat → Formula → Run σ (Formula × Nat)
  | 0, _, _ => throw .outOfRounds
  | fuel + 1, rounds, fragment => do
    let next ← step fragment
    if ← query engine (v.quantify .existential (.and next (.not fragment))) then
      grow engine v step fuel (rounds + 1) next
    else return (fragment, rounds + 1)

/-- Where an existential "until" is met on a finite path, one step further than in `fragment`. -/
def untilStep (T : Tableau) (states : Formula) (v : SymbolicState) (p q fragment : Formula) :
    Run σ Formula := do
  let step ← T.successorIn states v fun next => do return [← v.transfer next fragment]
  let now ← attempt (v.value q)
  return .or now (.and (← attempt (v.value p)) step)

/-- Where a universal "until" is met on a finite tree, one step further than in `fragment`. -/
def everyUntilStep (T : Tableau) (states : Formula) (v : SymbolicState) (p q fragment : Formula) :
    Run σ Formula := do
  let inFragment (next : SymbolicState) : Except Fault (List Formula) := do
    return [← v.transfer next fragment]
  let still ← attempt (v.value p)
  let step ← T.successorIn states v inFragment
  let met ← T.promisesMet states v inFragment
  return .or (← attempt (v.value q)) (.conj (still :: step :: met))

/-- The states at which an existential "until" is met on a finite path. -/
def untilFragment (T : Tableau) (engine : Engine σ) (rounds : Nat) (states : Formula)
    (v : SymbolicState) (p q : Formula) : Run σ Formula := do
  let (fragment, n) ← grow engine v (T.untilStep states v p q) rounds 0 .falsity
  note (.converged .eu p q n)
  return fragment

/-- The states at which a universal "until" is met on a finite tree. -/
def everyUntilFragment (T : Tableau) (engine : Engine σ) (rounds : Nat) (states : Formula)
    (v : SymbolicState) (p q : Formula) : Run σ Formula := do
  let (fragment, n) ← grow engine v (T.everyUntilStep states v p q) rounds 0 .falsity
  note (.converged .au p q n)
  return fragment

/-- That every existential "until" promised by `v` is met. -/
def untilsMet (T : Tableau) (engine : Engine σ) (rounds : Nat) (states : Formula)
    (v : SymbolicState) : Run σ Formula := do
  let terms ← T.untils.mapM fun (p, q) => do
    let fragment ← T.untilFragment engine rounds states v p q
    let denied ← attempt (v.value (.ex (.eu p q)))
    return .disj [.not denied, .not (← attempt (v.value p)), fragment]
  return .conj terms

/-- That every universal "until" promised by `v` is met: the promise is that the "release" of the
    negations is denied. -/
def everyUntilsMet (T : Tableau) (engine : Engine σ) (rounds : Nat) (states : Formula)
    (v : SymbolicState) : Run σ Formula := do
  let terms ← T.releases.mapM fun (p, q) => do
    let fragment ← T.everyUntilFragment engine rounds states v p.negate q.negate
    let released ← attempt (v.value (.ex (.er p q)))
    return .disj [released, ← attempt (v.value p), fragment]
  return .conj terms

/-! ## 3. Rounds -/

/-- The states that stay in a round. -/
def refined (T : Tableau) (engine : Engine σ) (rounds : Nat) (v : SymbolicState)
    (states : Formula) : Run σ Formula := do
  let succeeded ← T.successorIn states v fun _ => return []
  let promised ← T.promisesMet states v fun _ => return []
  let untils ← T.untilsMet engine rounds states v
  let everyUntils ← T.everyUntilsMet engine rounds states v
  return .conj [states, succeeded, .conj promised, untils, everyUntils]

/-- A round on the states that are left: the states that stay, and whether the engine finds that any
    was removed. -/
def round (T : Tableau) (engine : Engine σ) (rounds : Nat) (v : SymbolicState) (number : Nat)
    (states : Formula) : Run σ (Formula × Bool) := do
  proceed
  note (.iteration number states.size)
  let rest ← T.refined engine rounds v states
  let removed ← query engine (v.quantify .existential (.and states (.not rest)))
  return (rest, removed)

/-- Rounds until the engine finds no state removed; the result is the last set of states, with the
    number of rounds. -/
def refine (T : Tableau) (engine : Engine σ) (rounds : Nat) (v : SymbolicState) :
    Nat → Nat → Formula → Run σ (Formula × Nat)
  | 0, _, _ => throw .outOfRounds
  | fuel + 1, iterations, states => do
    let (rest, removed) ← T.round engine rounds v (iterations + 1) states
    if removed then refine T engine rounds v fuel (iterations + 1) rest
    else return (rest, iterations + 1)

/-! ## 4. Checks -/

/-- Counts numbers, queries and time from the start again. -/
def restart : Run σ Unit :=
  modify fun s => { s with tickets := .start, queries := 0, elapsed := .zero }

/-- Decides whether the tableau's formula is satisfiable; every loop may take the given number of
    rounds. -/
def checkWithin (T : Tableau) (engine : Engine σ) (rounds : Nat) : Run σ Report := do
  restart
  let v ← attempt (SymbolicState.make T.elementary stateStem)
  let (states, iterations) ← T.refine engine rounds v rounds 0 .truth
  note (.fixpoint iterations)
  let value ← attempt (v.value T.normalized)
  let satisfiable ← query engine (v.quantify .existential (.and states value))
  let s ← get
  let report : Report := ⟨satisfiable, iterations, s.queries, s.elapsed⟩
  note (.decided T.normalized report)
  return report

/-- More rounds than a loop takes with an engine that answers with the truth: every round but the
    last removes or adds one of the states at least. -/
def roundBound (T : Tableau) : Nat := Nat.pow 2 T.elementary.size + 1

/-- Decides whether the tableau's formula is satisfiable. -/
def check (T : Tableau) (engine : Engine σ) : Run σ Report := T.checkWithin engine T.roundBound

end CtlTableau.Tableau
