import CtlTableau.Solver.Exit

/-!
# Watching a solver

A started solver is looked after from time to time. Each look finds it running or ended; if it runs
and the run was called off, it is killed and waited for. What a child does is therefore given by
what the looks at it find. Watching it (`watchLooks`) gives an end and the list of things done to the
child, unless all looks leave it running; a course (`Course`) is looks of which one decides.

Main statements: the watch finds what the first look finds that decides (`exit?_watchStarted`), and
whatever the looks find, the child is gone after the watch and was waited for
(`reaped_watchStarted`).
-/

namespace CtlTableau.Solver

/-! ## 1. Looks -/

/-- What a look at a child finds. -/
inductive Look where
  /-- It is running; the flag says whether the run was called off by then. -/
  | running (calledOff : Bool)
  /-- It has ended. -/
  | ended (exit : Exit)
  deriving DecidableEq, Repr

namespace Look

/-- Whether no look follows. -/
def decides : Look → Bool
  | .running calledOff => calledOff
  | .ended _ => true

/-- How the child ended, if it did. -/
def exit? : Look → Option Exit
  | .running _ => none
  | .ended exit => some exit

end Look

/-! ## 2. The watch -/

/-- What is done to a child. -/
inductive Action where
  | start
  /-- A look that finds it running. -/
  | look
  /-- A look that finds it ended, and takes note of it. -/
  | collect
  | kill
  | wait
  deriving DecidableEq, Repr

/-- What came of watching a child. -/
structure Watched where
  /-- How it ended, if the watch was not broken off. -/
  exit? : Option Exit
  /-- What was done to it, in order. -/
  actions : List Action
  /-- How often it was waited for the next look. -/
  pauses : Nat
  deriving DecidableEq, Repr

/-- Watches a child that has been started; none if all looks leave it running. -/
def watchLooks : List Look → Option Watched
  | [] => none
  | .ended exit :: _ => some ⟨some exit, [.collect], 0⟩
  | .running true :: _ => some ⟨none, [.look, .kill, .wait], 0⟩
  | .running false :: looks =>
    (watchLooks looks).map fun w => ⟨w.exit?, .look :: w.actions, w.pauses + 1⟩

/-- Starts and watches a child. -/
def watchStarted (looks : List Look) : Option Watched :=
  (watchLooks looks).map fun w => { w with actions := .start :: w.actions }

/-- What the watch finds is what the first look finds that decides. -/
theorem exit?_watchStarted (looks : List Look) :
    (watchStarted looks).map (·.exit?) = (looks.find? Look.decides).map Look.exit? := by
  unfold watchStarted
  rw [Option.map_map]
  show (watchLooks looks).map (·.exit?) = _
  induction looks with
  | nil => rfl
  | cons l looks ih =>
    cases l with
    | ended exit => rfl
    | running calledOff =>
      cases calledOff with
      | true => rfl
      | false =>
        rw [watchLooks, Option.map_map]
        exact ih

/-- Whether a child that was treated so is gone and was waited for. -/
def Reaped (actions : List Action) : Prop :=
  .collect ∈ actions ∨ ∃ before, actions = before ++ [.kill, .wait]

theorem Reaped.cons {actions : List Action} (h : Reaped actions) (a : Action) :
    Reaped (a :: actions) := by
  rcases h with h | ⟨before, h⟩
  · exact .inl (List.mem_cons_of_mem a h)
  · exact .inr ⟨a :: before, congrArg (a :: ·) h⟩

theorem reaped_watchLooks {looks : List Look} {w : Watched} (h : watchLooks looks = some w) :
    Reaped w.actions := by
  induction looks generalizing w with
  | nil => cases h
  | cons l looks ih =>
    cases l with
    | ended exit =>
      cases h
      exact .inl (List.mem_singleton_self _)
    | running calledOff =>
      cases calledOff with
      | true =>
        cases h
        exact .inr ⟨[.look], rfl⟩
      | false =>
        obtain ⟨w', h', rfl⟩ := Option.map_eq_some_iff.1 h
        exact (ih h').cons .look

/-- However the watch ends, the child was started, is gone and was waited for. -/
theorem reaped_watchStarted {looks : List Look} {w : Watched} (h : watchStarted looks = some w) :
    .start ∈ w.actions ∧ Reaped w.actions := by
  obtain ⟨w', h', rfl⟩ := Option.map_eq_some_iff.1 h
  exact ⟨List.mem_cons_self, (reaped_watchLooks h').cons .start⟩

/-! ## 3. Courses -/

/-- Looks at a child of which one decides. -/
structure Course where
  looks : List Look
  decided : looks.any Look.decides = true

namespace Course

/-- The given number of looks that let the child run, and then the last look. -/
def make (open_ : Nat) (last : Look) (h : last.decides = true) : Course where
  looks := List.replicate open_ (.running false) ++ [last]
  decided := by simp [h]

theorem isSome_watch (c : Course) : (watchStarted c.looks).isSome = true := by
  have h := congrArg Option.isSome (exit?_watchStarted c.looks)
  rw [Option.isSome_map, Option.isSome_map] at h
  rw [h, List.find?_isSome]
  exact List.any_eq_true.1 c.decided

/-- Starts and watches a child that takes the course. -/
def watch (c : Course) : Watched := (watchStarted c.looks).get c.isSome_watch

theorem watchStarted_looks (c : Course) : watchStarted c.looks = some c.watch :=
  (Option.some_get _).symm

end Course

end CtlTableau.Solver
