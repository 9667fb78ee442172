import CtlTableau.Proofs.Variables
import CtlTableau.Solver.External

/-!
# Calls of a solver

A call of a solver writes its query, starts the command and looks at the child until a look decides.
The looks may find anything: the child running or ended, by a code or a signal, and the run called off
or not. The answer is what the deciding look says (`run_answer`), the child is gone when the call
returns, and the number of the engine counts the calls that were not called off before they began.
In a sequence of calls on one engine the numbers go on, so every query is kept under a name of its own
(`files_of_runAll`).

Main statement: `calls_honest`.
-/

namespace CtlTableau.Solver

/-! ## 1. The look that decides -/

/-- The looks find this, and before it the child running and the run not called off. -/
def Sees (looks : List Look) (l : Look) : Prop :=
  ∃ before after, looks = before ++ l :: after ∧ ∀ x ∈ before, x = .running false

namespace Look

/-- Whether the child was still running. -/
def isRunning : Look → Bool
  | .running _ => true
  | .ended _ => false

theorem decides_eq_false_iff (l : Look) : l.decides = false ↔ l = .running false := by
  cases l with
  | running calledOff => cases calledOff <;> decide
  | ended exit => exact iff_of_false nofun nofun

end Look

variable {looks : List Look} {l : Look}

theorem find?_decides_iff :
    looks.find? Look.decides = some l ↔ l.decides = true ∧ Sees looks l := by
  rw [List.find?_eq_some_iff_append, Sees]
  refine and_congr_right fun _ => ⟨?_, ?_⟩
  · intro ⟨before, after, e, h⟩
    exact ⟨before, after, e, fun x hx => (Look.decides_eq_false_iff x).1 (by simpa using h x hx)⟩
  · intro ⟨before, after, e, h⟩
    refine ⟨before, after, e, fun x hx => ?_⟩
    rw [h x hx]
    rfl

theorem find?_decides_eq_none_iff :
    looks.find? Look.decides = none ↔ ∀ l ∈ looks, l = .running false := by
  rw [List.find?_eq_none]
  refine forall₂_congr fun x _ => ?_
  rw [Bool.not_eq_true, Look.decides_eq_false_iff]

/-- The first look that finds the run called off decides, if the child was running until then. -/
theorem sees_calledOff_iff : Sees looks (.running true) ↔
    ∃ before after, looks = before ++ .running true :: after ∧
      ∀ x ∈ before, x.isRunning = true := by
  constructor
  · intro ⟨before, after, e, h⟩
    refine ⟨before, after, e, fun x hx => ?_⟩
    rw [h x hx]
    rfl
  · intro ⟨before, after, e, h⟩
    refine (find?_decides_iff.1 ?_).2
    rw [e, List.find?_append]
    cases found : before.find? Look.decides with
    | none => rfl
    | some x =>
      -- a look before it decides, so it found the run called off as well
      have running := h x (List.mem_of_find?_eq_some found)
      have decides := List.find?_some found
      cases x with
      | running calledOff =>
        obtain rfl : calledOff = true := decides
        rfl
      | ended exit => cases running

/-! ## 2. Files for queries -/

namespace External

variable {s : External} {config : Config}

theorem dumpName_inj {m n : Nat} (h : dumpName m = dumpName n) : m = n := by
  have h := congrArg String.toList h
  unfold dumpName at h
  simp only [String.toList_append] at h
  exact toString_nat_inj
    (String.toList_inj.1 (List.append_cancel_left (List.append_cancel_right h)))

theorem lookup_keep_self (s : External) (name text : String) :
    (s.keep name text).dump.lookup name = some text := List.lookup_cons_self

/-- The files of other names are left alone. -/
theorem lookup_keep_of_ne {name other : String} (h : other ≠ name) (s : External)
    (text : String) : (s.keep name text).dump.lookup other = s.dump.lookup other := by
  have filter : ∀ files : List (String × String),
      (files.filter (·.1 != name)).lookup other = files.lookup other := by
    intro files
    induction files with
    | nil => rfl
    | cons file files ih =>
      obtain ⟨name', text'⟩ := file
      by_cases e : name' = name
      · subst e
        rw [List.filter_cons_of_neg (by simp), ih, List.lookup_cons, beq_false_of_ne h]
      · rw [List.filter_cons_of_pos (by simpa using e), List.lookup_cons, List.lookup_cons, ih]
  unfold keep
  rw [List.lookup_cons, beq_false_of_ne h]
  exact filter s.dump

/-- The engine at another time. -/
def atTime (s : External) (clock : Duration) : External := { s with clock }

/-- The engine after queries that were all counted and kept. -/
def fileAll (config : Config) (s : External) (texts : List String) : External :=
  texts.foldl (fun s text => s.count.file config text) s

theorem queries_file (text : String) : (s.file config text).queries = s.queries := by
  unfold file
  split <;> rfl

theorem queries_fileAll (texts : List String) :
    (s.fileAll config texts).queries = s.queries + texts.length := by
  induction texts generalizing s with
  | nil => rfl
  | cons text texts ih =>
    show (fileAll config (s.count.file config text) texts).queries = _
    rw [ih, queries_file, List.length_cons, count, Nat.add_right_comm, Nat.add_assoc]

/-- Only the files with the numbers of the new queries are written. -/
theorem lookup_fileAll_of_ne {name : String} {texts : List String}
    (h : ∀ n, s.queries < n → n ≤ s.queries + texts.length → name ≠ dumpName n) :
    (s.fileAll config texts).dump.lookup name = s.dump.lookup name := by
  induction texts generalizing s with
  | nil => rfl
  | cons text texts ih =>
    rw [List.length_cons] at h
    have first : (s.count.file config text).dump.lookup name = s.dump.lookup name := by
      unfold file
      split
      · exact lookup_keep_of_ne (h _ (Nat.lt_succ_self _) (by omega)) s.count text
      · rfl
    rw [← first]
    refine ih fun n lt le => h n ?_ ?_
    all_goals
      rw [queries_file] at *
      unfold count at *
      simp only at *
      omega

/-- Every new query is in the file with its number. -/
theorem lookup_fileAll (keeps : config.dumpDir.isSome = true) {texts : List String} {k : Nat}
    {text : String} (h : texts[k]? = some text) :
    (s.fileAll config texts).dump.lookup (dumpName (s.queries + k + 1)) = some text := by
  induction texts generalizing s k with
  | nil => cases h
  | cons first texts ih =>
    have number : (s.count.file config first).queries = s.queries + 1 := queries_file first
    cases k with
    | zero =>
      obtain rfl : first = text := Option.some.inj h
      show (fileAll config (s.count.file config first) texts).dump.lookup _ = _
      -- the later queries have greater numbers
      rw [lookup_fileAll_of_ne fun n lt _ e => by
        have := dumpName_inj e
        omega]
      unfold file
      rw [if_pos keeps]
      exact lookup_keep_self s.count _ first
    | succ k =>
      have rest := @ih (s.count.file config first) k h
      rw [number, Nat.add_right_comm _ 1 k] at rest
      exact rest

end External

/-! ## 3. One call -/

theorem verdict_eq_ok_iff {command : String} {exit? : Option Exit} {b : Bool} :
    External.verdict command exit? = .ok b ↔
      exit? = some (.code (if b then Exit.codeTrue else Exit.codeFalse)) := by
  cases exit? with
  | none => exact iff_of_false nofun nofun
  | some exit =>
    have answer : External.verdict command (some exit) = .ok b ↔ exit.verdict? = some b := by
      unfold External.verdict
      cases exit with
      | code n => cases h : (Exit.code n).verdict? <;> simp [h]
      | signal n => simp [Exit.verdict?]
    rw [answer]
    cases b with
    | true => rw [Exit.verdict?_eq_some_true_iff, Option.some.injEq]; rfl
    | false => rw [Exit.verdict?_eq_some_false_iff, Option.some.injEq]; rfl

/-- Only the watch that was broken off means that the run was called off. -/
theorem verdict_eq_error {command : String} {exit? : Option Exit} {e : Fault}
    (h : External.verdict command exit? = .error e) :
    exit? = none ∧ e = .cancelled ∨ exit? ≠ none ∧ ∃ cause, e = .solver cause := by
  unfold External.verdict at h
  split at h
  · cases h
    exact .inl ⟨rfl, rfl⟩
  · split at h
    · cases h
    · cases h
      exact .inr ⟨nofun, _, rfl⟩
    · cases h
      exact .inr ⟨nofun, _, rfl⟩

/-- A call of a solver: what is asked, whether the run was called off before, and what starting the
    command leads to, the reason why it cannot be started or looks at the child. -/
structure Call where
  form : ClauseForm
  calledOff : Bool
  start : Except String (List Look)
  elapsed : Duration := .zero
  /-- Whether the run is called off by the end of the call although no look found it so. -/
  late : Bool := false

namespace Call

variable {setting : Setting} {call : Call} {s : External} {c : External.Called}

/-- What the call leads to; none if the looks leave the child running. -/
def run (setting : Setting) (call : Call) (s : External) : Option External.Called :=
  External.attend setting
    (fun _ => match call.start with
      | .error reason => some (.error reason)
      | .ok looks => (watchStarted looks).map fun w => .ok ⟨w, call.elapsed, call.late⟩)
    call.form call.calledOff s

/-- The engine when the query is written. -/
def filed (setting : Setting) (call : Call) (s : External) : External :=
  s.count.file setting.config call.form.qdimacs

theorem run_of_calledOff (h : call.calledOff = true) : call.run setting s =
    some { outcome := { answer := .error .cancelled, engine := s, cancelled := true } } := by
  unfold run External.attend
  rw [if_pos h, h]
  rfl

theorem run_of_error (writable : setting.config.dumpDir.bind setting.dirRefusal = none)
    (h : call.calledOff = false) {reason : String} (start : call.start = .error reason) :
    call.run setting s = some { outcome :=
      { answer := .error (.solver (.notStarted setting.config.command reason))
        engine := call.filed setting s
        cancelled := false
        log := [.written call.form.qdimacs] } } := by
  unfold run External.attend
  simp only [h, start, writable]
  rfl

theorem run_of_ok (writable : setting.config.dumpDir.bind setting.dirRefusal = none)
    (h : call.calledOff = false) {looks : List Look} (start : call.start = .ok looks) :
    call.run setting s = (watchStarted looks).map fun w =>
      { outcome := External.conclude setting ⟨w, call.elapsed, call.late⟩ (call.filed setting s)
          [.written call.form.qdimacs]
        actions := w.actions } := by
  unfold run External.attend
  simp only [h, start, writable]
  cases watchStarted looks <;> rfl

/-- The call was not called off before, and the looks at its child see this first. -/
def Finds (call : Call) (l : Look) : Prop :=
  call.calledOff = false ∧ ∃ looks, call.start = .ok looks ∧ Sees looks l

/-- How a call ends that returns, and what becomes of the engine. -/
theorem run_cases (writable : setting.config.dumpDir.bind setting.dirRefusal = none)
    (h : call.run setting s = some c) :
    call.calledOff = true ∧ c.outcome.answer = .error .cancelled ∧ c.outcome.engine = s ∨
    call.calledOff = false ∧ (∃ clock, c.outcome.engine = (call.filed setting s).atTime clock) ∧
      ((∃ reason, call.start = .error reason ∧
        c.outcome.answer = .error (.solver (.notStarted setting.config.command reason))) ∨
      ∃ looks l, call.start = .ok looks ∧ looks.find? Look.decides = some l ∧
        c.outcome.answer = External.verdict setting.config.command l.exit? ∧
        .start ∈ c.actions ∧ Reaped c.actions) := by
  cases off : call.calledOff with
  | true =>
    rw [run_of_calledOff off] at h
    cases h
    exact .inl ⟨rfl, rfl, rfl⟩
  | false =>
    cases start : call.start with
    | error reason =>
      rw [run_of_error writable off start] at h
      cases h
      exact .inr ⟨rfl, ⟨_, rfl⟩, .inl ⟨reason, rfl, rfl⟩⟩
    | ok looks =>
      rw [run_of_ok writable off start] at h
      obtain ⟨w, hw, rfl⟩ := Option.map_eq_some_iff.1 h
      have same := exit?_watchStarted looks
      rw [hw, Option.map_some] at same
      obtain ⟨l, hl, e⟩ := Option.map_eq_some_iff.1 same.symm
      refine .inr ⟨rfl, ⟨_, rfl⟩, .inr ⟨looks, l, rfl, hl, ?_, reaped_watchStarted hw⟩⟩
      rw [e]
      rfl

/-- What a call may answer, given what was seen, and what becomes of its child. -/
structure Honest (call : Call) (c : External.Called) : Prop where
  true_iff : c.outcome.answer = .ok true ↔ call.Finds (.ended (.code 10))
  false_iff : c.outcome.answer = .ok false ↔ call.Finds (.ended (.code 20))
  /-- The run was called off before, or a look saw it called off while the child was running and
      had been at all looks before. -/
  cancelled_iff : c.outcome.answer = .error .cancelled ↔ call.calledOff = true ∨
    ∃ before after, call.start = .ok (before ++ .running true :: after) ∧
      ∀ x ∈ before, x.isRunning = true
  faulty : ∀ e, c.outcome.answer = .error e → e ≠ .cancelled → ∃ cause, e = .solver cause
  reaped : ∀ looks, call.calledOff = false → call.start = .ok looks →
    .start ∈ c.actions ∧ Reaped c.actions

/-- A call gives a verdict exactly if the deciding look found the child ended by its code. -/
theorem answer_eq_ok_iff (writable : setting.config.dumpDir.bind setting.dirRefusal = none)
    (h : call.run setting s = some c) {b : Bool} :
    c.outcome.answer = .ok b ↔
      call.Finds (.ended (.code (if b then Exit.codeTrue else Exit.codeFalse))) := by
  rcases run_cases writable h with ⟨off, answer, -⟩ | ⟨off, -, ⟨reason, start, answer⟩ | found⟩
  · rw [answer]
    refine iff_of_false nofun fun ⟨off', _⟩ => ?_
    rw [off] at off'
    cases off'
  · rw [answer]
    refine iff_of_false nofun fun ⟨_, looks, start', _⟩ => ?_
    rw [start] at start'
    cases start'
  · obtain ⟨looks, l, start, hl, answer, -⟩ := found
    rw [answer, verdict_eq_ok_iff]
    constructor
    · intro e
      have hl := (find?_decides_iff.1 hl).2
      cases l with
      | running calledOff => cases e
      | ended exit =>
        obtain rfl := Option.some.inj e
        exact ⟨off, looks, start, hl⟩
    · intro ⟨_, looks', start', hl'⟩
      rw [start] at start'
      cases start'
      have hl' := find?_decides_iff.2 ⟨rfl, hl'⟩
      rw [hl] at hl'
      cases hl'
      rfl

/-- A call is called off before, or by the deciding look. -/
theorem answer_eq_cancelled_iff
    (writable : setting.config.dumpDir.bind setting.dirRefusal = none)
    (h : call.run setting s = some c) :
    c.outcome.answer = .error .cancelled ↔ call.calledOff = true ∨
      ∃ looks, call.start = .ok looks ∧ Sees looks (.running true) := by
  rcases run_cases writable h with ⟨off, answer, -⟩ | ⟨off, -, ⟨reason, start, answer⟩ | found⟩
  · exact iff_of_true answer (.inl off)
  · rw [answer, start, off]
    exact iff_of_false nofun (Or.elim · nofun nofun)
  · obtain ⟨looks, l, start, hl, answer, -⟩ := found
    rw [answer, off]
    constructor
    · intro e
      rcases verdict_eq_error e with ⟨e, -⟩ | ⟨-, cause, e⟩
      · obtain ⟨decides, hl⟩ := find?_decides_iff.1 hl
        cases l with
        | running calledOff =>
          obtain rfl : calledOff = true := decides
          exact .inr ⟨looks, start, hl⟩
        | ended exit => cases e
      · cases e
    · intro called
      obtain ⟨looks', start', hl'⟩ := called.resolve_left Bool.false_ne_true
      rw [start] at start'
      cases start'
      have hl' := find?_decides_iff.2 ⟨rfl, hl'⟩
      rw [hl] at hl'
      cases hl'
      rfl

theorem honest_run (writable : setting.config.dumpDir.bind setting.dirRefusal = none)
    (h : call.run setting s = some c) : call.Honest c where
  true_iff := answer_eq_ok_iff writable h
  false_iff := answer_eq_ok_iff writable h
  cancelled_iff := by
    rw [answer_eq_cancelled_iff writable h]
    refine or_congr_right ⟨fun ⟨looks, start, sees⟩ => ?_, fun ⟨before, after, start, running⟩ => ?_⟩
    · obtain ⟨before, after, rfl, running⟩ := sees_calledOff_iff.1 sees
      exact ⟨before, after, start, running⟩
    · exact ⟨_, start, sees_calledOff_iff.2 ⟨before, after, rfl, running⟩⟩
  faulty e he hne := by
    rcases run_cases writable h with ⟨-, answer, -⟩ | ⟨-, -, ⟨reason, -, answer⟩ | found⟩
    · rw [answer] at he
      cases he
      exact absurd rfl hne
    · rw [answer] at he
      cases he
      exact ⟨_, rfl⟩
    · obtain ⟨_, _, -, -, answer, -⟩ := found
      rw [answer] at he
      exact (verdict_eq_error he).elim (fun h => absurd h.2 hne) And.right
  reaped looks off start := by
    rcases run_cases writable h with ⟨off', -⟩ | ⟨-, -, ⟨reason, start', -⟩ | found⟩
    · rw [off] at off'
      cases off'
    · rw [start] at start'
      cases start'
    · obtain ⟨_, _, -, -, -, reaped⟩ := found
      exact reaped

/-- A call does not return exactly if all looks leave its child running. -/
theorem run_eq_none_iff (writable : setting.config.dumpDir.bind setting.dirRefusal = none) :
    call.run setting s = none ↔ call.calledOff = false ∧
      ∃ looks, call.start = .ok looks ∧ ∀ l ∈ looks, l = .running false := by
  cases off : call.calledOff with
  | true =>
    rw [run_of_calledOff off]
    exact iff_of_false nofun (Bool.false_ne_true ·.1.symm)
  | false =>
    cases start : call.start with
    | error reason =>
      rw [run_of_error writable off start]
      exact iff_of_false nofun nofun
    | ok looks =>
      have same := congrArg Option.isNone (exit?_watchStarted looks)
      rw [Option.isNone_map, Option.isNone_map] at same
      rw [run_of_ok writable off start, Option.map_eq_none_iff, ← Option.isNone_iff_eq_none, same,
        Option.isNone_iff_eq_none, find?_decides_eq_none_iff]
      exact ⟨fun h => ⟨rfl, looks, rfl, h⟩, fun ⟨_, _, e, h⟩ => Except.ok.inj e ▸ h⟩

/-! ## 4. Calls one after another -/

/-- Calls on one engine; none if one of them does not return. -/
def runAll (setting : Setting) : List Call → External → Option External
  | [], s => some s
  | call :: calls, s =>
    (call.run setting s).bind fun c => runAll setting calls c.outcome.engine

/-- The queries of the calls that were not called off before. -/
def counted (calls : List Call) : List String :=
  (calls.filter fun call => !call.calledOff).map (·.form.qdimacs)

theorem counted_cons (call : Call) (calls : List Call) : counted (call :: calls) =
    if call.calledOff then counted calls else call.form.qdimacs :: counted calls := by
  unfold counted
  cases off : call.calledOff <;> simp [off]

theorem fileAll_atTime (config : Config) (clock : Duration) (s : External)
    (texts : List String) :
    (s.atTime clock).fileAll config texts = (s.fileAll config texts).atTime clock := by
  induction texts generalizing s with
  | nil => rfl
  | cons text texts ih =>
    have first : (s.atTime clock).count.file config text =
        (s.count.file config text).atTime clock := by
      unfold External.file
      split <;> rfl
    show External.fileAll config ((s.atTime clock).count.file config text) texts = _
    rw [first]
    exact ih _

/-- Besides the time, a sequence of calls leaves the engine as if it had only written the queries of
    the calls that were not called off before, whatever the looks found. -/
theorem files_of_runAll {calls : List Call} {s' : External}
    (writable : setting.config.dumpDir.bind setting.dirRefusal = none)
    (h : runAll setting calls s = some s') :
    ∃ clock, s' = (s.fileAll setting.config (counted calls)).atTime clock := by
  induction calls generalizing s with
  | nil =>
    cases h
    exact ⟨s'.clock, rfl⟩
  | cons call calls ih =>
    obtain ⟨c, hc, h⟩ := Option.bind_eq_some_iff.1 h
    obtain ⟨clock, rfl⟩ := ih h
    rw [counted_cons]
    rcases run_cases writable hc with ⟨off, -, engine⟩ | ⟨off, ⟨clock', engine⟩, -⟩
    · rw [engine, off]
      exact ⟨clock, rfl⟩
    · rw [engine, off, fileAll_atTime]
      exact ⟨clock, rfl⟩

/-- The call that the engine makes in its circumstances. -/
def inSetting (setting : Setting) (form : ClauseForm) (calledOff : Bool) (s : External) : Call :=
  let started := setting.start (s.count.file setting.config form.qdimacs) form.qdimacs
  { form
    calledOff
    start := started.map (·.child.looks)
    elapsed := (started.toOption.map (·.elapsed)).getD .zero
    late := started.toOption.any (·.calledOff) }

theorem run_inSetting (writable : setting.config.dumpDir.bind setting.dirRefusal = none)
    (form : ClauseForm) (calledOff : Bool) (s : External) :
    ∃ c, (inSetting setting form calledOff s).run setting s = some c ∧
      c.outcome = External.solve setting form calledOff s := by
  cases calledOff with
  | true => exact ⟨_, run_of_calledOff rfl, rfl⟩
  | false =>
    unfold External.solve External.attend
    simp only [writable]
    cases start : setting.start (s.count.file setting.config form.qdimacs) form.qdimacs with
    | error reason =>
      have start' : (inSetting setting form false s).start = .error reason := by
        unfold inSetting
        rw [start]
        rfl
      exact ⟨_, run_of_error writable rfl start', rfl⟩
    | ok started =>
      have start' : (inSetting setting form false s).start = .ok started.child.looks := by
        unfold inSetting
        rw [start]
        rfl
      refine ⟨_, (run_of_ok writable rfl start').trans ?_, rfl⟩
      rw [started.child.watchStarted_looks]
      unfold inSetting
      rw [start]
      rfl

/-! ## 5. Calls are honest -/

/-- **A call of a solver invents no verdict and leaves no process behind**, whatever the looks at its
    child find. It returns unless all of them leave the child running, and then it is honest. Over a
    sequence of calls the number of the engine grows by one for each call that was not called off
    before, however the call ended, and the query of such a call is kept under the number that it got.
    The calls that the engine makes are among these calls. -/
theorem calls_honest (setting : Setting)
    (writable : setting.config.dumpDir.bind setting.dirRefusal = none) :
    (∀ (call : Call) (s : External) (c : External.Called),
      call.run setting s = some c → call.Honest c) ∧
    (∀ (call : Call) (s : External), call.run setting s = none ↔ call.calledOff = false ∧
      ∃ looks, call.start = .ok looks ∧ ∀ l ∈ looks, l = .running false) ∧
    (∀ (calls : List Call) (s s' : External), runAll setting calls s = some s' →
      s'.queries = s.queries + (calls.filter fun call => !call.calledOff).length ∧
      (setting.config.dumpDir.isSome = true → ∀ k text, (counted calls)[k]? = some text →
        s'.dump.lookup (External.dumpName (s.queries + k + 1)) = some text)) ∧
    ∀ (form : ClauseForm) (calledOff : Bool) (s : External),
      ∃ c, (inSetting setting form calledOff s).run setting s = some c ∧
        c.outcome = External.solve setting form calledOff s := by
  refine ⟨fun _ _ _ => honest_run writable, fun _ _ => run_eq_none_iff writable,
    fun calls s s' h => ?_, run_inSetting writable⟩
  obtain ⟨clock, rfl⟩ := files_of_runAll writable h
  constructor
  · show (s.fileAll setting.config (counted calls)).queries = _
    rw [External.queries_fileAll, counted, List.length_map]
  · intro keeps k text hk
    exact External.lookup_fileAll keeps hk

/-- The query whether a variable can be true. -/
def oneClause : ClauseForm := .ofLists [(.existential, 1)] [[1]] 1

/-- Calls that end in every way: by a verdict, called off before and on the way, not started, and by a
    signal. -/
def mixed : List Call :=
  [{ form := oneClause, calledOff := false, start := .ok [.running false, .ended (.code 10)] },
    { form := oneClause, calledOff := true, start := .ok [] },
    { form := oneClause, calledOff := false
      start := .ok [.running false, .running true, .ended (.code 10)] },
    { form := oneClause, calledOff := false, start := .error "Permission denied (os error 13)" },
    { form := oneClause, calledOff := false, start := .ok [.ended (.signal 9)] },
    { form := oneClause, calledOff := false
      start := .ok [.running false, .running false, .ended (.code 20)] }]

/-- A solver whose queries are kept. -/
def keeping : Setting where
  config := { command := "solver", dumpDir := some "kept" }
  dirRefusal _ := none
  start _ _ := .error "No such file or directory (os error 2)"

/-- The calls that end in every way have five numbers, and the last of them gets the fifth. -/
theorem calls_honest_mixed : keeping.config.dumpDir.bind keeping.dirRefusal = none ∧
    (∃ s', runAll keeping mixed {} = some s' ∧ s'.queries = 5 ∧
      s'.dump.lookup "query-5.qdimacs" = some "p cnf 1 1\ne 1 0\n1 0\n") ∧
    ∀ (call : Call) c, call.run keeping {} = some c → call.Honest c := by
  have writable : keeping.config.dumpDir.bind keeping.dirRefusal = none := rfl
  obtain ⟨honest, -, numbered, -⟩ := calls_honest keeping writable
  refine ⟨writable, ?_, fun call c => honest call {} c⟩
  obtain ⟨queries, files⟩ := numbered mixed {} _ rfl
  have text : oneClause.qdimacs = "p cnf 1 1\ne 1 0\n1 0\n" := by decide +kernel
  refine ⟨_, rfl, queries, ?_⟩
  rw [← text]
  exact files rfl 4 oneClause.qdimacs rfl

end Call

end CtlTableau.Solver
