import CtlTableau.Proofs.Answers
import CtlTableau.Proofs.Sending

/-!
# Which queries are kept

The files for queries are numbered by the engine, and every formula of a run is checked with an engine
of its own, whose first query has the number 1 again. So the files of a check are written over those
of the checks before it, as far as there are any: the files are never more than the most queries of a
single check (`Numbered`), while every check that sends queries adds some of its own. Hence every
query of a run has a file of its own exactly if no more than one formula sent a query.

A formula that is checked sends a query, unless the time for it is over before.

Main statement: `kept_iff_one_accepted`.
-/

namespace CtlTableau.CommandLine

open Solver

/-! ## 1. Numbered files -/

/-- The files have different names, with numbers up to this one. -/
structure Numbered (files : List (String × String)) (m : Nat) : Prop where
  nodup : (files.map (·.1)).Nodup
  named : ∀ file ∈ files, ∃ n, 1 ≤ n ∧ n ≤ m ∧ file.1 = External.dumpName n

namespace Numbered

variable {files : List (String × String)} {m n : Nat} {s : External} {config : Config}

theorem nil : Numbered [] 0 := ⟨.nil, fun _ h => absurd h List.not_mem_nil⟩

/-- There are no more files than numbers. -/
theorem length_le (h : Numbered files m) : files.length ≤ m := by
  have subset : files.map (·.1) ⊆ (List.range m).map fun k => External.dumpName (k + 1) := by
    intro name hname
    obtain ⟨file, hfile, rfl⟩ := List.mem_map.1 hname
    obtain ⟨n, one_le, le, e⟩ := h.named file hfile
    refine List.mem_map.2 ⟨n - 1, List.mem_range.2 (by omega), ?_⟩
    rw [e, Nat.sub_add_cancel one_le]
  have le := h.nodup.length_le_of_subset subset
  rwa [List.length_map, List.length_map, List.length_range] at le

/-- A file is written. -/
theorem keep (h : Numbered s.dump m) (hn : 1 ≤ n) (text : String) :
    Numbered (s.keep (External.dumpName n) text).dump (max m n) where
  nodup := by
    show (External.dumpName n :: (s.dump.filter (·.1 != External.dumpName n)).map (·.1)).Nodup
    refine List.nodup_cons.2 ⟨fun hm => ?_, h.nodup.sublist (List.filter_sublist.map _)⟩
    obtain ⟨file, hfile, e⟩ := List.mem_map.1 hm
    have other := (List.mem_filter.1 hfile).2
    rw [e, bne_self_eq_false] at other
    cases other
  named file hfile := by
    rcases List.mem_cons.1 hfile with rfl | hfile
    · exact ⟨n, hn, Nat.le_max_right m n, rfl⟩
    · obtain ⟨k, one_le, le, e⟩ := h.named file (List.mem_filter.1 hfile).1
      exact ⟨k, one_le, Nat.le_trans le (Nat.le_max_left m n), e⟩

theorem mono (h : Numbered files m) (hn : m ≤ n) : Numbered files n where
  nodup := h.nodup
  named file hfile := by
    obtain ⟨k, one_le, le, e⟩ := h.named file hfile
    exact ⟨k, one_le, Nat.le_trans le hn, e⟩

theorem file (h : Numbered s.dump m) (text : String) :
    Numbered (s.count.file config text).dump (max m (s.queries + 1)) := by
  unfold External.file
  split
  · exact Numbered.keep (s := s.count) h (Nat.le_add_left 1 _) text
  · exact h.mono (Nat.le_max_left _ _)

/-- Queries are written one after another. -/
theorem fileAll (h : Numbered s.dump m) (texts : List String) :
    Numbered (s.fileAll config texts).dump (max m (s.queries + texts.length)) := by
  induction texts generalizing s m with
  | nil => exact h.mono (Nat.le_max_left _ _)
  | cons text texts ih =>
    have first : Numbered (s.count.file config text).dump (max m (s.queries + 1)) := h.file text
    have rest := ih first
    rw [External.queries_file] at rest
    refine rest.mono ?_
    unfold External.count
    rw [List.length_cons]
    simp only
    omega

/-- A query with a new number is added to those that are there. -/
theorem texts_fileAll (keeps : config.dumpDir.isSome = true) (h : Numbered s.dump s.queries)
    (texts : List String) :
    (s.fileAll config texts).dump.map (·.2) = texts.reverse ++ s.dump.map (·.2) := by
  induction texts generalizing s with
  | nil => rfl
  | cons text texts ih =>
    have others : s.dump.filter (·.1 != External.dumpName (s.queries + 1)) = s.dump := by
      refine List.filter_eq_self.2 fun file hfile => bne_iff_ne.2 fun e => ?_
      obtain ⟨k, -, le, e'⟩ := h.named file hfile
      have := External.dumpName_inj (e'.symm.trans e)
      omega
    have first : (s.count.file config text).dump.map (·.2) = text :: s.dump.map (·.2) := by
      unfold External.file
      rw [if_pos keeps]
      show text :: (s.dump.filter (·.1 != External.dumpName (s.queries + 1))).map (·.2) = _
      rw [others]
    have later : Numbered (s.count.file config text).dump (s.count.file config text).queries := by
      rw [External.queries_file]
      exact (h.file text).mono (Nat.le_of_eq (Nat.max_eq_right (Nat.le_succ _)))
    show (External.fileAll config (s.count.file config text) texts).dump.map (·.2) = _
    rw [ih later, first, List.reverse_cons, List.append_assoc]
    rfl

end Numbered

/-! ## 2. One formula after another -/

variable {env : Environment} {rounds : Nat} {o : Options} {p p' : Progress} {input : String}
  {inputs : List String}

theorem isAccepted_of_parse {f : Formula} (parsed : Formula.parse input = .ok f)
    (temporal : f.isTemporal = true) : isAccepted input = true := by
  obtain ⟨T, made⟩ := Tableau.exists_ofFormula temporal
  unfold isAccepted
  rw [parsed]
  simp only [made]

/-- A formula sends some queries, and their files are written over those that there are, from the
    first number on. Only a formula that is checked sends any, and it does without a timeout. -/
theorem answer_writes (writable : o.dumpDir.bind env.dirRefusal = none)
    (checking : o.normalize = false) (h : answer env rounds o p input = some p') :
    ∃ texts, p'.dump = (External.fileAll o.config { dump := p.dump } texts).dump ∧
      p'.sent = p.sent ++ [texts] ∧ (texts ≠ [] → isAccepted input = true) ∧
      (isAccepted input = true → o.timeout = none → texts ≠ []) := by
  obtain ⟨refused, e, rfl⟩ | ⟨accepted, f, T, -, made, ⟨normalize, -⟩ | ⟨-, checked⟩⟩ :=
    answer_cases h
  · refine ⟨[], rfl, rfl, fun h => absurd rfl h, fun accepted => ?_⟩
    rw [refused] at accepted
    cases accepted
  · rw [checking] at normalize
    cases normalize
  · obtain ⟨r, s, a, hrun, ha, rfl⟩ := check_eq_some checked
    obtain ⟨texts, sends, asked⟩ := Tableau.check_sends writable made hrun
    refine ⟨texts, ?_, ?_, fun _ => accepted, fun _ untimed => asked ?_ ?_⟩
    · obtain ⟨clock, kept⟩ := sends.kept
      have dump := congrArg External.dump kept
      exact dump
    · exact congrArg (fun texts => p.sent ++ [texts]) sends.told
    · show (o.timeout.isSome && _) = false
      rw [untimed]
      rfl
    · rintro rfl
      cases ha

/-- Every query of a run is still there, in a file of its own. -/
def AllKept (p : Progress) : Prop := p.sent.flatten.Subperm (p.dump.map (·.2))

/-- How many formulas sent a query. -/
def Progress.senders (p : Progress) : Nat := p.sent.countP fun texts => !texts.isEmpty

theorem senders_add {texts : List String} (sent : p'.sent = p.sent ++ [texts]) :
    p'.senders = p.senders + if !texts.isEmpty then 1 else 0 := by
  rw [Progress.senders, sent, List.countP_append, List.countP_singleton, Progress.senders]

/-- What a run has written. -/
structure Filed (p : Progress) : Prop where
  /-- The files are not more than the queries, and fewer from the second sender on. -/
  files : ∃ m, Numbered p.dump m ∧ m ≤ p.sent.flatten.length ∧
    (2 ≤ p.senders → m < p.sent.flatten.length)
  unsent : p.senders = 0 → p.dump = [] ∧ p.sent.flatten = []
  sent : 1 ≤ p.senders → p.sent.flatten ≠ []
  kept : p.senders = 1 → AllKept p

namespace Filed

theorem start : Filed {} where
  files := ⟨0, .nil, Nat.le_refl 0, nofun⟩
  unsent _ := ⟨rfl, rfl⟩
  sent := nofun
  kept := nofun

/-- Every query has a file as long as one formula at most sent any. -/
theorem allKept_iff (h : Filed p) : AllKept p ↔ p.senders ≤ 1 := by
  constructor
  · intro kept
    obtain ⟨m, numbered, -, fewer⟩ := h.files
    have all := kept.length_le
    rw [List.length_map] at all
    have le := numbered.length_le
    omega
  · intro le
    rcases Nat.le_one_iff_eq_zero_or_eq_one.1 le with e | e
    · obtain ⟨dump, sent⟩ := h.unsent e
      unfold AllKept
      rw [dump, sent]
      exact .refl _
    · exact h.kept e

/-- A formula sends some queries, or none. -/
theorem add (h : Filed p) (config : Config) (keeps : config.dumpDir.isSome = true)
    {texts : List String} (dump : p'.dump = (External.fileAll config { dump := p.dump } texts).dump)
    (sent : p'.sent = p.sent ++ [texts]) : Filed p' := by
  have all : p'.sent.flatten = p.sent.flatten ++ texts := by
    rw [sent, List.flatten_append, List.flatten_singleton]
  have count := senders_add sent
  cases texts with
  | nil =>
    -- only the files and the queries matter, and they are the same
    rw [List.append_nil] at all
    obtain ⟨m, files⟩ := h.files
    constructor
    · rw [dump, all, count]
      exact ⟨m, files⟩
    · rw [dump, all, count]
      exact h.unsent
    · rw [all, count]
      exact h.sent
    · unfold AllKept
      rw [dump, all, count]
      exact h.kept
  | cons text texts =>
    have one : p'.senders = p.senders + 1 := count
    have length := congrArg List.length all
    rw [List.length_append, List.length_cons] at length
    constructor
    · obtain ⟨m, numbered, le, fewer⟩ := h.files
      have before : 1 ≤ p.senders → 0 < p.sent.flatten.length :=
        fun hn => List.length_pos_iff.2 (h.sent hn)
      have added : Numbered p'.dump (max m (0 + (texts.length + 1))) := by
        rw [dump]
        exact Numbered.fileAll (s := { dump := p.dump }) numbered (text :: texts)
      exact ⟨_, added, by omega, by omega⟩
    · omega
    · intro _ none
      rw [none, List.length_nil] at length
      omega
    · intro hn
      obtain ⟨noDump, noSent⟩ := h.unsent (by omega)
      have files := Numbered.texts_fileAll (s := {}) keeps .nil (text :: texts)
      unfold AllKept
      rw [dump, all, noDump, noSent, files, List.nil_append, List.map_nil, List.append_nil]
      exact (List.reverse_perm _).symm.subperm

end Filed

/-- What a run has written, and how many of its formulas sent a query. -/
theorem filed_answerAll (keeps : o.dumpDir.isSome = true)
    (writable : o.dumpDir.bind env.dirRefusal = none) (checking : o.normalize = false)
    (ended : answerAll env rounds o inputs = some p) :
    Filed p ∧ p.senders ≤ inputs.countP isAccepted ∧
      (o.timeout = none → p.senders = inputs.countP isAccepted) := by
  refine answerAll_induction (R := fun inputs p => Filed p ∧
    p.senders ≤ inputs.countP isAccepted ∧
      (o.timeout = none → p.senders = inputs.countP isAccepted))
    ⟨.start, Nat.le_refl 0, fun _ => rfl⟩
    (fun inputs input p p' ⟨filed, le, eq⟩ answered => ?_) ended
  obtain ⟨texts, dump, sent, only, some⟩ := answer_writes writable checking answered
  rw [List.countP_append, List.countP_singleton, senders_add sent]
  have filed' := filed.add o.config keeps dump sent
  cases texts with
  | nil =>
    refine ⟨filed', Nat.le_add_right_of_le le, fun untimed => ?_⟩
    have refused : isAccepted input = false := Bool.eq_false_iff.2 fun h => some h untimed rfl
    rw [eq untimed, refused]
    rfl
  | cons text texts =>
    rw [only (List.cons_ne_nil _ _)]
    exact ⟨filed', Nat.add_le_add_right le 1, fun untimed => congrArg (· + 1) (eq untimed)⟩

/-- **Every query of a run has a file of its own exactly if no more than one formula sent a query.**
    The number of a query starts at 1 with every formula, so from the second formula on its files
    replace those of the formulas before it. Only formulas that are checked send queries; without a
    timeout, all of them do. -/
theorem kept_iff_one_accepted {d : String} (keeps : o.dumpDir = some d)
    (writable : env.dirRefusal d = none) (checking : o.normalize = false)
    (ended : answerAll env rounds o inputs = some p) :
    (AllKept p ↔ p.senders ≤ 1) ∧ p.senders ≤ inputs.countP isAccepted ∧
      (o.timeout = none → p.senders = inputs.countP isAccepted) := by
  have writable' : o.dumpDir.bind env.dirRefusal = none := by
    rw [keeps]
    exact writable
  obtain ⟨filed, senders⟩ := filed_answerAll (Option.isSome_of_mem keeps) writable' checking ended
  exact ⟨filed.allKept_iff, senders⟩

/-! ## 3. Two runs -/

/-- A check ends if its solver finds no query true. -/
theorem exists_check {f : Formula} {T : Tableau} (made : Tableau.ofFormula f = .ok T)
    (never : ∀ form c s,
      (External.solve (env.setting o p.answers.length) form c s).answer ≠ .ok true)
    (hr : 0 < rounds) : ∃ p', check env rounds o p input T = some p' := by
  let engine := (External.engine (env.setting o p.answers.length)).toEngine
  have ended : ∀ s, ((T.checkWithin engine rounds).run.run s).1 ≠ .error .outOfRounds := fun _ =>
    Tableau.ne_outOfRounds made (ClausalEngine.decide_ne_true never) hr
  obtain ⟨a, ha⟩ := Answer.exists_ofResult? <| ended
    { engine := { dump := p.dump }
      cancelled := o.timeout.isSome && env.early p.answers.length }
  exact ⟨_, Option.map_eq_some_iff.2 ⟨a, ha, rfl⟩⟩

/-- A solver that finds every query false. -/
def alwaysFalse : Environment where
  start _ _ _ _ := .ok ⟨.make 0 (.ended (.code 20)) rfl, .zero, false⟩
  dirRefusal _ := none
  early _ := false

theorem solve_alwaysFalse (number : Nat) (form : ClauseForm) (c : Bool) (s : External) :
    (External.solve (alwaysFalse.setting o number) form c s).answer ≠ .ok true := by
  have writable : o.dumpDir.bind alwaysFalse.dirRefusal = none := by
    cases o.dumpDir <;> rfl
  unfold External.solve External.attend
  cases c with
  | true => exact nofun
  | false =>
    simp only [Environment.setting, Options.config, writable]
    exact nofun

/-- A run with this solver ends. -/
theorem exists_answerAll_alwaysFalse (o : Options) (inputs : List String) :
    ∃ p, answerAll alwaysFalse 1 o inputs = some p :=
  exists_answerAll (fun _ _ _ _ _ made => exists_check made (solve_alwaysFalse _) Nat.one_pos) inputs

/-- A run that keeps its queries. -/
def keepingRun : Options := { solver := "solver", dumpDir := some "kept" }

theorem parse_p : Formula.parse "p" = .ok (.atom "p") := by decide +kernel

/-- For a formula and a text that is none, every query is kept. -/
theorem kept_iff_one_accepted_beside_refused :
    keepingRun.dumpDir = some "kept" ∧ alwaysFalse.dirRefusal "kept" = none ∧
    keepingRun.normalize = false ∧
    ∃ p, answerAll alwaysFalse 1 keepingRun ["p", "p -"] = some p ∧ p.senders = 1 ∧ AllKept p := by
  have accepted : isAccepted "p" = true := isAccepted_of_parse parse_p rfl
  have refused : isAccepted "p -" = false := by
    unfold isAccepted
    rw [show Formula.parse "p -" = .error (.unrecognized '-' 2) by decide +kernel]
  have one : ["p", "p -"].countP isAccepted = 1 := by
    rw [List.countP_cons_of_pos accepted, List.countP_singleton, refused]
    rfl
  obtain ⟨p, ended⟩ := exists_answerAll_alwaysFalse keepingRun ["p", "p -"]
  obtain ⟨kept, -, senders⟩ := kept_iff_one_accepted rfl rfl rfl ended
  have sent : p.senders = 1 := (senders rfl).trans one
  exact ⟨rfl, rfl, rfl, p, ended, sent, kept.2 (Nat.le_of_eq sent)⟩

/-- For two formulas there are fewer files than queries. -/
theorem queries_lost_two_accepted :
    ∃ p, answerAll alwaysFalse 1 keepingRun ["p", "EX(p)"] = some p ∧
      ¬ AllKept p ∧ p.dump.length < p.sent.flatten.length := by
  have parse_next : Formula.parse "EX(p)" = .ok (.ex (.atom "p")) := by decide +kernel
  have two : ["p", "EX(p)"].countP isAccepted = 2 := by
    rw [List.countP_cons_of_pos (isAccepted_of_parse parse_p rfl),
      List.countP_cons_of_pos (isAccepted_of_parse parse_next rfl), List.countP_nil]
  obtain ⟨p, ended⟩ := exists_answerAll_alwaysFalse keepingRun ["p", "EX(p)"]
  obtain ⟨filed, -, senders⟩ := filed_answerAll rfl rfl rfl ended
  have sent : p.senders = 2 := (senders rfl).trans two
  obtain ⟨m, numbered, -, fewer⟩ := filed.files
  refine ⟨p, ended, fun kept => ?_, Nat.lt_of_le_of_lt numbered.length_le (fewer sent.ge)⟩
  have few := filed.allKept_iff.1 kept
  omega

end CtlTableau.CommandLine
