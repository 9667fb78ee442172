import CtlTableau.Proofs.Answers
import CtlTableau.Proofs.Closure
import Mathlib.Data.List.DropRight
import Mathlib.Data.List.Forall2
import Mathlib.Data.List.TakeWhile

/-!
# Which lines of the input a run accounts for

A run that takes its formulas from the standard input owes an account of every line that is neither
blank nor a comment, and of every line that is no text at all (`dueLines`): it is answered on the
standard output or reported among the errors (`Told`), and success means that all of them were
answered (`Accounts`). One formula after another is answered whatever came of those before it, so a
run that ends keeps this for the lines up to the first one that is not UTF-8. There reading stops,
and nothing tells of that line and of the lines behind it.

A check that is called off when its time is over is answered by saying so. A check that does not end
leaves its run without a result, and no account of it is asked for.

Main statement: `accounts_iff_readable`.
-/

namespace CtlTableau.CommandLine

open Text

/-! ## 1. Lines and what is told of them -/

/-- The text of a line, if it is UTF-8. -/
def lineText? (line : List UInt8) : Option String := String.fromUTF8? ⟨line.toArray⟩

/-- Whether a line is UTF-8. -/
def isReadable (line : List UInt8) : Bool := (lineText? line).isSome

/-- The first character that is not blank. -/
def firstMark? (s : String) : Option Char := s.toList.find? fun c => !isBlank c

/-- What a line asks to be told of: of its text, unless that is blank or a comment, or that it has
    none. -/
def dueLine? (line : List UInt8) : Option (Option String) :=
  match lineText? line with
  | none => some none
  | some s => if (firstMark? s).any (· != '#') then some (some (trim s)) else none

/-- The lines that a run has to account for. -/
def dueLines (lines : List (List UInt8)) : List (Option String) := lines.filterMap dueLine?

/-- What may be told of a line. -/
inductive Told : Option String → String × Answer → Prop where
  /-- It is answered on the standard output. -/
  | answered {s : String} {a : Answer} (success : a.isFailed = false)
      (output : ∃ rest, a.output s = s ++ ": " ++ rest) (error : a.error s = "") :
      Told (some s) (s, a)
  /-- It is reported among the errors. -/
  | reported {s : String} {a : Answer} (failure : a.isFailed = true)
      (error : ∃ rest, a.error s = s ++ ": " ++ rest) (output : a.output s = "") :
      Told (some s) (s, a)
  /-- A line that is no text is reported under any name. -/
  | unreadable {s : String} {a : Answer} (failure : a.isFailed = true)
      (error : ∃ rest, a.error s = s ++ ": " ++ rest) : Told none (s, a)

/-- The run accounts for the lines, one after another, by what it says and by its exit code. -/
structure Accounts (x : Execution) (due : List (Option String)) (answers : List (String × Answer)) :
    Prop where
  told : List.Forall₂ Told due answers
  stdout : x.stdout = String.join (answers.map fun (s, a) => a.output s)
  stderr : x.stderr = String.join (answers.map fun (s, a) => a.error s)
  success : x.exitCode = 0 ↔ ∀ a ∈ answers, a.2.isFailed = false

/-! ## 2. What is told of an answer -/

/-- Whatever comes of a formula is told, on one of the two streams. -/
theorem told_answer (s : String) (a : Answer) : Told (some s) (s, a) := by
  cases a with
  | normalized T =>
    -- the elementary formulas follow the line itself
    have grows : ∀ (es : List Formula) (text : String), ∃ rest,
        es.foldl (fun s e => s ++ "  " ++ e.text ++ "\n") text = text ++ rest := by
      intro es
      induction es with
      | nil => exact fun text => ⟨"", String.append_empty.symm⟩
      | cons e es ih =>
        intro text
        obtain ⟨rest, h⟩ := ih (text ++ "  " ++ e.text ++ "\n")
        refine ⟨"  " ++ e.text ++ "\n" ++ rest, ?_⟩
        rw [List.foldl_cons, h]
        simp only [String.append_assoc]
    obtain ⟨rest, h⟩ := grows T.elementary.toList (s ++ ": " ++ T.normalized.text ++ "\n")
    refine .answered rfl ⟨T.normalized.text ++ "\n" ++ rest, ?_⟩ rfl
    rw [Answer.output, h]
    simp only [String.append_assoc]
  | report r =>
    refine .answered rfl ⟨r.text ++ "\n", ?_⟩ rfl
    simp only [Answer.output, String.append_assoc]
  | timeout =>
    refine .answered rfl ⟨"TIMEOUT\n", ?_⟩ rfl
    rw [Answer.output, String.append_assoc]
    rfl
  | failed cause =>
    refine .reported rfl ⟨cause.message ++ "\n", ?_⟩ rfl
    simp only [Answer.error, String.append_assoc]

theorem accounts_execution (p : Progress) :
    Accounts p.execution ((p.answers.map (·.1)).map some) p.answers where
  told := by
    rw [List.map_map, List.forall₂_map_left_iff, List.forall₂_same]
    exact fun a _ => told_answer a.1 a.2
  stdout := by
    rw [String.join, List.foldl_map]
    rfl
  stderr := by
    rw [String.join, List.foldl_map]
    rfl
  success := by
    unfold Progress.execution
    simp

/-! ## 3. The lines that are read -/

/-- A trimmed line holds a formula if its first character that is not blank is no comment sign. -/
theorem isFormulaLine_trim (s : String) :
    isFormulaLine (trim s) = (firstMark? s).any (· != '#') := by
  have cut : (trim s).toList = (s.toList.dropWhile isBlank).rdropWhile isBlank := by
    rw [trim, String.toList_ofList]
    rfl
  have mark : firstMark? s = (s.toList.dropWhile isBlank).head? :=
    List.find?_not_eq_head?_dropWhile ..
  unfold isFormulaLine
  cases h : s.toList.dropWhile isBlank with
  | nil =>
    rw [h] at cut mark
    have empty : trim s = "" := String.toList_inj.1 cut
    rw [mark, empty]
    rfl
  | cons c cs =>
    rw [h] at cut mark
    -- the first mark is not trimmed from the other end
    have marked : isBlank c = false := by simpa using List.find?_some mark
    have kept : (c :: cs).rdropWhile isBlank ≠ [] := fun e => by
      have blank := List.rdropWhile_eq_nil_iff.1 e c List.mem_cons_self
      rw [marked] at blank
      cases blank
    obtain ⟨cs', first⟩ : ∃ cs', (trim s).toList = c :: cs' := by
      obtain ⟨c', cs', e⟩ := List.exists_cons_of_ne_nil kept
      have start := List.rdropWhile_prefix isBlank (l := c :: cs)
      rw [e] at start
      obtain ⟨rfl, -⟩ := List.cons_prefix_cons.1 start
      exact ⟨cs', cut.trans e⟩
    have filled : trim s ≠ "" := fun e => by
      rw [e] at first
      cases first
    rw [mark, first, bne_iff_ne.2 filled]
    rfl

/-- Reading stops at the first line that is not UTF-8. -/
theorem dueLines_takeWhile (lines : List (List UInt8)) :
    dueLines (lines.takeWhile isReadable) =
      (((readableLines lines).map trim).filter isFormulaLine).map some := by
  induction lines with
  | nil => rfl
  | cons line lines ih =>
    cases h : lineText? line with
    | none =>
      have stop : ¬ isReadable line = true := by simp [isReadable, h]
      rw [List.takeWhile_cons_of_neg stop, readableLines, show String.fromUTF8? _ = none from h]
      rfl
    | some s =>
      have go : isReadable line = true := by simp [isReadable, h]
      rw [List.takeWhile_cons_of_pos go, dueLines, List.filterMap_cons, ← dueLines, ih, dueLine?, h,
        readableLines, show String.fromUTF8? _ = some s from h]
      dsimp only
      rw [List.map_cons, List.filter_cons, isFormulaLine_trim]
      cases (firstMark? s).any (· != '#') <;> rfl

theorem dueLine?_of_unreadable {line : List UInt8} (h : isReadable line = false) :
    dueLine? line = some none := by
  rw [dueLine?, Option.isNone_iff_eq_none.1 (Option.isSome_eq_false_iff.1 h)]

/-- A line that is not UTF-8 is due, but it is not among those that are read. -/
theorem length_dueLines_lt {lines : List (List UInt8)} {line : List UInt8} (mem : line ∈ lines)
    (unreadable : isReadable line = false) :
    (dueLines (lines.takeWhile isReadable)).length < (dueLines lines).length := by
  induction lines with
  | nil => exact absurd mem List.not_mem_nil
  | cons first lines ih =>
    cases h : isReadable first with
    | false =>
      rw [List.takeWhile_cons_of_neg (by simp [h]), dueLines, dueLines,
        List.filterMap_cons_some (dueLine?_of_unreadable h)]
      exact Nat.succ_pos _
    | true =>
      have behind : line ∈ lines := by
        rcases List.mem_cons.1 mem with rfl | behind
        · rw [h] at unreadable
          cases unreadable
        · exact behind
      rw [List.takeWhile_cons_of_pos h, dueLines, dueLines]
      cases due : dueLine? first with
      | none =>
        rw [List.filterMap_cons_none due, List.filterMap_cons_none due]
        exact ih behind
      | some d =>
        rw [List.filterMap_cons_some due, List.filterMap_cons_some due]
        exact Nat.succ_lt_succ (ih behind)

/-! ## 4. What a run accounts for -/

/-- **A run that ends accounts for every line exactly if every line is UTF-8.** In any case it accounts
    for the lines before the first one that is not. -/
theorem accounts_iff_readable {env : Environment} {rounds : Nat} {o : Options} {stdin : List UInt8}
    {p : Progress} (asked : o.formulas = [])
    (ended : answerAll env rounds o (o.inputs stdin) = some p) :
    run env rounds o stdin = some p.execution ∧
    Accounts p.execution (dueLines ((byteLines stdin).takeWhile isReadable)) p.answers ∧
    (Accounts p.execution (dueLines (byteLines stdin)) p.answers ↔
      ∀ line ∈ byteLines stdin, isReadable line = true) := by
  have readable : Accounts p.execution (dueLines ((byteLines stdin).takeWhile isReadable))
      p.answers := by
    have inputs : o.inputs stdin = inputLines stdin := by rw [Options.inputs, asked]; rfl
    have told := accounts_execution p
    rw [inputs_answerAll ended, inputs] at told
    rw [dueLines_takeWhile]
    exact told
  refine ⟨?_, readable, fun all line mem => ?_, fun h => ?_⟩
  · rw [run, ended]
    rfl
  · -- as many answers as lines that are read, and so too few
    by_contra unreadable
    have fewer := length_dueLines_lt mem (Bool.eq_false_iff.2 unreadable)
    rw [readable.told.length_eq, ← all.told.length_eq] at fewer
    exact absurd fewer (Nat.lt_irrefl _)
  · rwa [List.takeWhile_eq_self_iff.2 h] at readable

/-- No solver can be started. -/
def solverless : Environment where
  start _ _ _ _ := .error "not found"
  dirRefusal _ := none
  early _ := false

/-- A run that normalizes formulas. -/
def normalizingRun : Options := { solver := "solver", normalize := true }

/-- A formula, a comment, a text that is none, and a formula between blanks. -/
theorem accounts_iff_readable_mixed :
    normalizingRun.formulas = [] ∧
    dueLines (byteLines [112, 10, 35, 10, 69, 88, 40, 10, 32, 113, 32]) =
      [some "p", some "EX(", some "q"] ∧
    ∃ p, answerAll solverless 0 normalizingRun
        (normalizingRun.inputs [112, 10, 35, 10, 69, 88, 40, 10, 32, 113, 32]) = some p ∧
      run solverless 0 normalizingRun [112, 10, 35, 10, 69, 88, 40, 10, 32, 113, 32] =
        some p.execution ∧
      Accounts p.execution [some "p", some "EX(", some "q"] p.answers := by
  have due : dueLines (byteLines [112, 10, 35, 10, 69, 88, 40, 10, 32, 113, 32]) =
      [some "p", some "EX(", some "q"] := by decide +kernel
  have readable : ∀ line ∈ byteLines [112, 10, 35, 10, 69, 88, 40, 10, 32, 113, 32],
      isReadable line = true := by decide +kernel
  have ends : ∀ inputs, ∃ p, answerAll solverless 0 normalizingRun inputs = some p :=
    exists_answerAll nofun
  obtain ⟨p, ended⟩ := ends (normalizingRun.inputs [112, 10, 35, 10, 69, 88, 40, 10, 32, 113, 32])
  obtain ⟨ran, -, all⟩ := accounts_iff_readable rfl ended
  have told := all.2 readable
  rw [due] at told
  exact ⟨rfl, due, p, ended, ran, told⟩

/-- The tableau of the formula "p". -/
def letterTableau : Tableau := ⟨.atom "p", ⟨[.atom "p"], by decide⟩⟩

theorem ofFormula_letter : Tableau.ofFormula (.atom "p") = .ok letterTableau := by
  have collected : (Formula.atom "p").normalize.elementaryList =
      .ok [.atom "p", .not (.atom "p")] := rfl
  refine Tableau.ofFormula_of_collected collected fun g => ?_
  simp only [OrderedSet.mem_def, List.mem_cons, List.not_mem_nil, or_false]
  constructor
  · rintro rfl
    exact ⟨Or.inl rfl, rfl⟩
  · rintro ⟨rfl | rfl, positive⟩
    · rfl
    · cases positive

/-- A byte that is no text, between two formulas: the run ends well, and nothing tells of the second
    formula. -/
theorem formula_lost_behind_unreadable :
    dueLines (byteLines [112, 10, 255, 10, 113, 10]) = [some "p", none, some "q"] ∧
    run solverless 0 normalizingRun [112, 10, 255, 10, 113, 10] = some ⟨0, "p: p\n  p\n", ""⟩ ∧
    ∀ answers, ¬ Accounts ⟨0, "p: p\n  p\n", ""⟩
      (dueLines (byteLines [112, 10, 255, 10, 113, 10])) answers := by
  have due : dueLines (byteLines [112, 10, 255, 10, 113, 10]) = [some "p", none, some "q"] := by
    decide +kernel
  have inputs : normalizingRun.inputs [112, 10, 255, 10, 113, 10] = ["p"] := by decide +kernel
  have parsed : Formula.parse "p" = .ok (.atom "p") := by decide +kernel
  have answered : answer solverless 0 normalizingRun {} "p" =
      some (Progress.add {} "p" (.normalized letterTableau)) := by
    rw [answer, parsed]
    dsimp only
    rw [ofFormula_letter]
    rfl
  refine ⟨due, ?_, fun answers h => ?_⟩
  · rw [run, inputs, ← List.nil_append ["p"], answerAll_concat]
    show (answer solverless 0 normalizingRun {} "p").map Progress.execution = _
    rw [answered]
    rfl
  · rw [due] at h
    -- the line that is no text would be reported, but the run ended well
    have well := h.success.1 rfl
    cases h.told with
    | cons _ told =>
      cases told with
      | cons unreadable _ =>
        cases unreadable with
        | unreadable failure =>
          rw [well _ (List.mem_cons_of_mem _ List.mem_cons_self)] at failure
          cases failure

end CtlTableau.CommandLine
