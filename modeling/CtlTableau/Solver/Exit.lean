/-!
# How a solver ends

A solver process gives its verdict by its exit code: 10 for true, 20 for false. Every other code, and
every end by a signal, is no verdict.
-/

namespace CtlTableau.Solver

/-- How a process ended. -/
inductive Exit where
  /-- It returned an exit code. -/
  | code (value : Nat)
  /-- A signal ended it. -/
  | signal (number : Nat)
  deriving DecidableEq, Repr

namespace Exit

/-- The exit code for a true query. -/
def codeTrue : Nat := 10

/-- The exit code for a false query. -/
def codeFalse : Nat := 20

/-- The verdict that an end stands for. -/
def verdict? : Exit → Option Bool
  | .code n => if n = codeTrue then some true else if n = codeFalse then some false else none
  | .signal _ => none

theorem verdict?_eq_some_true_iff (e : Exit) : e.verdict? = some true ↔ e = .code codeTrue := by
  cases e with
  | code n => by_cases h : n = codeTrue <;> simp [verdict?, h]
  | signal n => simp [verdict?]

theorem verdict?_eq_some_false_iff (e : Exit) : e.verdict? = some false ↔ e = .code codeFalse := by
  cases e with
  | code n =>
    by_cases h : n = codeTrue
    · simp [verdict?, h, codeTrue, codeFalse]
    · simp [verdict?, h]
  | signal n => simp [verdict?]

/-- The names of the signals that end a process, by number. -/
def signalNames : List (Nat × String) :=
  [(1, "SIGHUP"), (2, "SIGINT"), (3, "SIGQUIT"), (4, "SIGILL"), (5, "SIGTRAP"), (6, "SIGABRT"),
    (7, "SIGBUS"), (8, "SIGFPE"), (9, "SIGKILL"), (10, "SIGUSR1"), (11, "SIGSEGV"),
    (12, "SIGUSR2"), (13, "SIGPIPE"), (14, "SIGALRM"), (15, "SIGTERM"), (16, "SIGSTKFLT"),
    (24, "SIGXCPU"), (25, "SIGXFSZ"), (26, "SIGVTALRM"), (27, "SIGPROF"), (29, "SIGIO"),
    (30, "SIGPWR"), (31, "SIGSYS")]

/-- How a process ended, in words. -/
def text : Exit → String
  | .code n => "exit status: " ++ toString n
  | .signal n =>
    match signalNames.lookup n with
    | some name => s!"signal: {n} ({name})"
    | none => s!"signal: {n}"

end Exit

end CtlTableau.Solver
