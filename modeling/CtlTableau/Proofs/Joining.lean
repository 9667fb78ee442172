import CtlTableau.Proofs.Reading

/-!
# The three ways to read items

`list`, `leftInfix` and `rightInfix` differ in what they make of the items and in how they go about
it: two of them add every item to what they have, the third one makes its result on the way back.
Still they find the same items, leave the same rest and report the same fault, whatever the parser of
the items does with its tokens.

That they come to an end needs no progress of the items' parser, as a separator is taken between two
items. So that parser is called once and then at most once for every token: the loops are done by then
even if nothing but a bound on the calls ends them (`rightInfixWithin`, `leftInfixWithin`,
`listWithin`).

Main statement: `combinators_agree`.
-/

namespace CtlTableau.Parser

variable {α ε : Type} {sep : String} {join : α → α → α} {p : Parser α ε} {n : Nat}
  {ts : List String}

/-! ## 1. Loops that are cut off -/

/-- `runRightInfix`, cut off after so many calls of the items' parser. -/
def rightInfixWithin (sep : String) (join : α → α → α) (p : Parser α ε) :
    Nat → List String → Option (Reading α ε)
  | 0, _ => none
  | n + 1, ts =>
    match p.run ts with
    | .error e => some (.error e)
    | .ok (a, []) => some (.ok (a, []))
    | .ok (a, t :: rest) =>
      if t = sep then
        (rightInfixWithin sep join p n rest).map fun r => r.map fun (b, rest') => (join a b, rest')
      else some (.ok (a, t :: rest))

/-- `runLeftRest`, cut off after so many calls of the items' parser. -/
def leftRestWithin (sep : String) (join : α → α → α) (p : Parser α ε) :
    Nat → α → List String → Option (Reading α ε)
  | _, acc, [] => some (.ok (acc, []))
  | 0, acc, t :: rest => if t = sep then none else some (.ok (acc, t :: rest))
  | n + 1, acc, t :: rest =>
    if t = sep then
      match p.run rest with
      | .error e => some (.error e)
      | .ok (a, rest') => leftRestWithin sep join p n (join acc a) rest'
    else some (.ok (acc, t :: rest))

/-- `runLeftInfix`, cut off after so many calls of the items' parser. -/
def leftInfixWithin (sep : String) (join : α → α → α) (p : Parser α ε) :
    Nat → List String → Option (Reading α ε)
  | 0, _ => none
  | n + 1, ts =>
    match p.run ts with
    | .error e => some (.error e)
    | .ok (a, rest) => leftRestWithin sep join p n a rest

/-- `runListRest`, cut off after so many calls of the items' parser. -/
def listRestWithin (sep : String) (p : Parser α ε) :
    Nat → List String → Option (Reading (List α) ε)
  | _, [] => some (.ok ([], []))
  | 0, t :: rest => if t = sep then none else some (.ok ([], t :: rest))
  | n + 1, t :: rest =>
    if t = sep then
      match p.run rest with
      | .error e => some (.error e)
      | .ok (a, rest') =>
        (listRestWithin sep p n rest').map fun r => r.map fun (as, rest'') => (a :: as, rest'')
    else some (.ok ([], t :: rest))

/-- `runList`, cut off after so many calls of the items' parser. -/
def listWithin (sep : String) (p : Parser α ε) : Nat → List String → Option (Reading (List α) ε)
  | 0, _ => none
  | n + 1, ts =>
    match p.run ts with
    | .error e => some (.error e)
    | .ok (a, rest) =>
      (listRestWithin sep p n rest).map fun r => r.map fun (as, rest') => (a :: as, rest')

/-! ## 2. One call for every token -/

/-- At a token there is a call left, and enough calls for what follows the token. -/
theorem exists_call_of_cons {t : String} {rest : List String} (h : (t :: rest).length ≤ n) :
    ∃ m, n = m + 1 ∧ rest.length ≤ m := by
  rw [List.length_cons] at h
  exact ⟨n - 1, by omega, by omega⟩

theorem rightInfixWithin_eq_some (h : ts.length ≤ n) :
    rightInfixWithin sep join p (n + 1) ts = some (runRightInfix sep join p ts) := by
  fun_induction runRightInfix sep join p ts generalizing n with
  | case1 ts e hp => simp only [rightInfixWithin, hp]
  | case2 ts a hp => simp only [rightInfixWithin, hp]
  | case3 ts a rest e hr hp ih =>
    obtain ⟨m, rfl, hm⟩ := exists_call_of_cons (Nat.le_trans (p.length_le hp) h)
    rw [rightInfixWithin, hp]
    simp only [if_pos, ih hm, hr]
    rfl
  | case4 ts a rest b rest' hr hp ih =>
    obtain ⟨m, rfl, hm⟩ := exists_call_of_cons (Nat.le_trans (p.length_le hp) h)
    rw [rightInfixWithin, hp]
    simp only [if_pos, ih hm, hr]
    rfl
  | case5 ts a t rest hp ht => simp only [rightInfixWithin, hp, if_neg ht]

theorem leftRestWithin_eq_some {acc : α} (h : ts.length ≤ n) :
    leftRestWithin sep join p n acc ts = some (runLeftRest sep join p acc ts) := by
  fun_induction runLeftRest sep join p acc ts generalizing n with
  | case1 => rw [leftRestWithin]
  | case2 acc rest e hp =>
    obtain ⟨m, rfl, -⟩ := exists_call_of_cons h
    simp only [leftRestWithin, if_pos, hp]
  | case3 acc rest a rest' hp ih =>
    obtain ⟨m, rfl, hm⟩ := exists_call_of_cons h
    simp only [leftRestWithin, if_pos, hp]
    exact ih (Nat.le_trans (p.length_le hp) hm)
  | case4 acc t rest ht => cases n <;> simp only [leftRestWithin, if_neg ht]

theorem leftInfixWithin_eq_some (h : ts.length ≤ n) :
    leftInfixWithin sep join p (n + 1) ts = some (runLeftInfix sep join p ts) := by
  rw [leftInfixWithin, runLeftInfix]
  cases hp : p.run ts with
  | error e => rfl
  | ok r => exact leftRestWithin_eq_some (Nat.le_trans (p.length_le hp) h)

theorem listRestWithin_eq_some (h : ts.length ≤ n) :
    listRestWithin sep p n ts = some (runListRest sep p ts) := by
  fun_induction runListRest sep p ts generalizing n with
  | case1 => rw [listRestWithin]
  | case2 rest e hp =>
    obtain ⟨m, rfl, -⟩ := exists_call_of_cons h
    simp only [listRestWithin, if_pos, hp]
  | case3 rest a rest' hp e hr ih =>
    obtain ⟨m, rfl, hm⟩ := exists_call_of_cons h
    simp only [listRestWithin, if_pos, hp, ih (Nat.le_trans (p.length_le hp) hm), hr]
    rfl
  | case4 rest a rest' hp as rest'' hr ih =>
    obtain ⟨m, rfl, hm⟩ := exists_call_of_cons h
    simp only [listRestWithin, if_pos, hp, ih (Nat.le_trans (p.length_le hp) hm), hr]
    rfl
  | case5 t rest ht => cases n <;> simp only [listRestWithin, if_neg ht]

theorem listWithin_eq_some (h : ts.length ≤ n) :
    listWithin sep p (n + 1) ts = some (runList sep p ts) := by
  rw [listWithin, runList_eq]
  cases hp : p.run ts with
  | error e => rfl
  | ok r =>
    dsimp only
    rw [listRestWithin_eq_some (Nat.le_trans (p.length_le hp) h)]
    rfl

/-! ## 3. Agreement -/

/-- **The three combinators agree**: they report the same fault, or they find the same items and leave
    the same rest; then one of them keeps the items, one joins them from the left and one from the
    right. As many calls of the items' parser as there are tokens, and one, are enough for each. -/
theorem combinators_agree (sep : String) (join : α → α → α) (p : Parser α ε) (ts : List String) :
    ((∃ fault, runList sep p ts = .error fault ∧ runLeftInfix sep join p ts = .error fault ∧
        runRightInfix sep join p ts = .error fault) ∨
      ∃ a as rest, runList sep p ts = .ok (a :: as, rest) ∧
        runLeftInfix sep join p ts = .ok (as.foldl join a, rest) ∧
        runRightInfix sep join p ts = .ok (joinRight join a as, rest)) ∧
    listWithin sep p (ts.length + 1) ts = some (runList sep p ts) ∧
    leftInfixWithin sep join p (ts.length + 1) ts = some (runLeftInfix sep join p ts) ∧
    rightInfixWithin sep join p (ts.length + 1) ts = some (runRightInfix sep join p ts) := by
  have le := Nat.le_refl ts.length
  refine ⟨?_, listWithin_eq_some le, leftInfixWithin_eq_some le, rightInfixWithin_eq_some le⟩
  rw [runList_eq, runLeftInfix_eq, runRightInfix_eq]
  cases p.run ts with
  | error fault => exact .inl ⟨fault, rfl, rfl, rfl⟩
  | ok r =>
    obtain ⟨a, ts'⟩ := r
    dsimp only
    cases runListRest sep p ts' with
    | error fault => exact .inl ⟨fault, rfl, rfl, rfl⟩
    | ok r => exact .inr ⟨a, r.1, r.2, rfl, rfl, rfl⟩

/-- Takes nothing: every token is still there. -/
def nothing : Parser Unit where
  run ts := .ok ((), ts)
  suffix h := by
    cases h
    exact List.suffix_refl _

/-- Items may be empty; only the separators are taken. -/
example : runList "," nothing [",", ",", "&"] = .ok ([(), (), ()], ["&"]) := by cbv

end CtlTableau.Parser
