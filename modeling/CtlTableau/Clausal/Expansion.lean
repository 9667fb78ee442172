import CtlTableau.Clausal

/-!
# Deciding a clause form by expansion

The truth of a clause form by trying both values of the outermost open variable, with unit
propagation before every choice: a clause whose only open literal is existential forces it, and a
clause without an open existential literal is lost, as the opponent sets the universal ones false.

The search works on one assignment, which every call hands back as it found it: forced variables are
opened again at the end of the call that forced them, chosen ones after the choice. A variable that
no quantifier binds counts as existential here, but is never chosen.
-/

namespace CtlTableau

/-- The values of the variables so far, by variable number; `none` is open. -/
abbrev Assignment := Array (Option Bool)

namespace Assignment

/-- No variable up to the given number has a value. -/
def allOpen (numVars : Nat) : Assignment := Array.replicate (numVars + 1) none

/-- The number of open variables. -/
def openCount (σ : Assignment) : Nat := σ.toList.countP (·.isNone)

/-- Whether a variable is open. -/
def isOpen (σ : Assignment) (x : Nat) : Bool := σ[x]? == some none

/-- Gives a variable a value, or opens it. -/
def put (σ : Assignment) (x : Nat) (v : Option Bool) : Assignment := σ.setIfInBounds x v

/-- Giving an open variable a value leaves fewer open. -/
theorem openCount_put_lt {σ : Assignment} {x : Nat} {v : Bool} (h : σ.isOpen x = true) :
    (σ.put x (some v)).openCount < σ.openCount := by
  have hx : σ[x]? = some none := by simpa [isOpen] using h
  obtain ⟨hlt, hget⟩ := Array.getElem?_eq_some_iff.1 hx
  have hl : x < σ.toList.length := by simpa using hlt
  have hn : σ.toList[x] = none := by simpa using hget
  have hpos : 0 < σ.toList.countP (·.isNone) :=
    List.countP_pos_iff.2 ⟨none, List.mem_of_getElem hn, rfl⟩
  simp only [openCount, put, Array.toList_setIfInBounds]
  rw [List.countP_set hl]
  simp only [hn, Option.isNone_none, if_true, Option.isNone_some, Bool.false_eq_true, if_false]
  omega

end Assignment

namespace ClauseForm

/-! ## 1. Looking at the clauses -/

/-- Which variables have a universal quantifier; of several quantifiers over one variable the
    innermost counts. -/
def universals (form : ClauseForm) : Array Bool :=
  let size := form.binders.foldl (fun n b => max n (b.2 + 1)) 0
  form.binders.foldl (fun a b => a.setIfInBounds b.2 (b.1 == .universal))
    (Array.replicate size false)

/-- How a clause stands under an assignment. -/
inductive Standing where
  /-- A literal is true. -/
  | satisfied
  /-- No open literal is existential. -/
  | lost
  /-- This is the only open literal, and it is existential. -/
  | unit (literal : Int)
  /-- Anything else. -/
  | undecided
  deriving DecidableEq, Repr

/-- How a clause stands; `opens` are the open literals before this place. -/
def standing (universal : Array Bool) (σ : Assignment) (opens : List Int) : List Int → Standing
  | [] =>
    match opens.filter (fun l => !universal.getD l.natAbs false), opens with
    | [], _ => .lost
    | [l], [_] => .unit l
    | _, _ => .undecided
  | l :: rest =>
    match σ[l.natAbs]? with
    | some (some v) =>
      if v = decide (0 < l) then .satisfied else standing universal σ opens rest
    | _ => standing universal σ (opens ++ [l]) rest

/-- How all clauses stand together. -/
inductive Outlook where
  /-- Every clause is satisfied. -/
  | won
  /-- Some clause is lost. -/
  | lost
  /-- Nothing is lost and the first unit clause forces this literal. -/
  | forced (literal : Int)
  /-- Nothing is lost or forced. -/
  | choice
  deriving DecidableEq, Repr

/-- How the clauses stand; `sofar` is the outlook on those before this place. -/
def outlook (universal : Array Bool) (σ : Assignment) (sofar : Outlook) : List (List Int) → Outlook
  | [] => sofar
  | c :: rest =>
    match standing universal σ [] c, sofar with
    | .lost, _ => .lost
    | .satisfied, _ => outlook universal σ sofar rest
    | .unit _, .forced l => outlook universal σ (.forced l) rest
    | .unit l, _ => outlook universal σ (.forced l) rest
    | .undecided, .won => outlook universal σ .choice rest
    | .undecided, _ => outlook universal σ sofar rest

/-! ## 2. The search -/

/-- Forces literals until a clause is lost, all are satisfied or none forces anything; gives the
    outlook then, the forced variables and the assignment. -/
def propagate (universal : Array Bool) (clauses : List (List Int)) (σ : Assignment)
    (trail : List Nat) : Outlook × List Nat × Assignment :=
  match outlook universal σ .won clauses with
  | .forced l =>
    if _h : σ.isOpen l.natAbs = true then
      propagate universal clauses (σ.put l.natAbs (some (decide (0 < l)))) (l.natAbs :: trail)
    else (.choice, trail, σ)
  | o => (o, trail, σ)
termination_by σ.openCount
decreasing_by exact Assignment.openCount_put_lt _h

/-- Opens variables again. -/
def release (trail : List Nat) (σ : Assignment) : Assignment :=
  trail.foldl (fun σ x => σ.put x none) σ

mutual

/-- The truth of the clauses under the quantifiers, from an assignment that is handed back. -/
def expand (universal : Array Bool) (clauses : List (List Int))
    (binders : List (Quantifier × Nat)) (σ : Assignment) : Bool × Assignment :=
  match propagate universal clauses σ [] with
  | (.won, trail, σ) => (true, release trail σ)
  | (.lost, trail, σ) => (false, release trail σ)
  | (_, trail, σ) =>
    let (truth, σ) := choose universal clauses binders σ
    (truth, release trail σ)
termination_by (binders.length, 1)

/-- Tries both values of the outermost open variable, true first; without one the clauses stay
    undecided and count as false. -/
def choose (universal : Array Bool) (clauses : List (List Int)) :
    (binders : List (Quantifier × Nat)) → (σ : Assignment) → Bool × Assignment
  | [], σ => (false, σ)
  | (kind, x) :: inner, σ =>
    if σ.isOpen x then
      let (first, σ) := expand universal clauses inner (σ.put x (some true))
      let σ := σ.put x none
      if first = decide (kind = .existential) then (first, σ)
      else
        let (second, σ) := expand universal clauses inner (σ.put x (some false))
        (second, σ.put x none)
    else choose universal clauses inner σ
termination_by binders => (binders.length, 0)

end

/-- The truth of a clause form. -/
def expansion (form : ClauseForm) : Bool :=
  (expand form.universals (form.clauses.toList.map (·.toList)) form.binders
    (.allOpen form.numVars)).1

end ClauseForm

end CtlTableau
