import CtlTableau.Token

/-!
# Parsers over token lists

A parser takes a piece off the front of a token list and returns what is left of the list. That it
returns an end piece of what it was given is part of its type; nothing says that it takes anything,
and the combinators end all the same, since a separator goes between two items.

Three combinators read one or more items with a separator between them: `rightInfix` and `leftInfix`
join the items by a constructor, grouping to the right and to the left, and `list` keeps them. Each
is a loop of its own. What the faults of the items are is of no consequence for them.
-/

namespace CtlTableau

/-- What reading a piece of a token list gives: the piece and the rest, or a fault. -/
abbrev Reading (α : Type) (ε : Type := ParseFault) := Except ε (α × List String)

/-- A parser returns an end piece of the tokens it was given, or a fault. -/
structure Parser (α : Type) (ε : Type := ParseFault) where
  /-- Takes a piece off the front. -/
  run : List String → Reading α ε
  /-- The rest is an end piece of the tokens. -/
  suffix : ∀ {ts a rest}, run ts = .ok (a, rest) → rest <:+ ts

namespace Parser

variable {α β ε : Type}

theorem length_le (p : Parser α ε) {ts : List String} {a : α} {rest : List String}
    (h : p.run ts = .ok (a, rest)) : rest.length ≤ ts.length := (p.suffix h).length_le

/-! ## 1. Items with separators -/

/-- Items joined from the right. -/
def runRightInfix (sep : String) (join : α → α → α) (p : Parser α ε) (ts : List String) :
    Reading α ε :=
  match _h : p.run ts with
  | .error e => .error e
  | .ok (a, []) => .ok (a, [])
  | .ok (a, t :: rest) =>
    if t = sep then
      match runRightInfix sep join p rest with
      | .error e => .error e
      | .ok (b, rest') => .ok (join a b, rest')
    else .ok (a, t :: rest)
termination_by ts.length
decreasing_by exact p.length_le _h

/-- Further items, joined from the left to what was read before. -/
def runLeftRest (sep : String) (join : α → α → α) (p : Parser α ε) (acc : α) (ts : List String) :
    Reading α ε :=
  match ts with
  | [] => .ok (acc, [])
  | t :: rest =>
    if t = sep then
      match _h : p.run rest with
      | .error e => .error e
      | .ok (a, rest') => runLeftRest sep join p (join acc a) rest'
    else .ok (acc, t :: rest)
termination_by ts.length
decreasing_by exact Nat.lt_succ_of_le (p.length_le _h)

/-- Items joined from the left. -/
def runLeftInfix (sep : String) (join : α → α → α) (p : Parser α ε) (ts : List String) :
    Reading α ε :=
  match p.run ts with
  | .error e => .error e
  | .ok (a, rest) => runLeftRest sep join p a rest

/-- Further items, each after a separator. -/
def runListRest (sep : String) (p : Parser α ε) (ts : List String) : Reading (List α) ε :=
  match ts with
  | [] => .ok ([], [])
  | t :: rest =>
    if t = sep then
      match _h : p.run rest with
      | .error e => .error e
      | .ok (a, rest') =>
        match runListRest sep p rest' with
        | .error e => .error e
        | .ok (as, rest'') => .ok (a :: as, rest'')
    else .ok ([], t :: rest)
termination_by ts.length
decreasing_by exact Nat.lt_succ_of_le (p.length_le _h)

/-- One or more items. -/
def runList (sep : String) (p : Parser α ε) (ts : List String) : Reading (List α) ε :=
  match p.run ts with
  | .error e => .error e
  | .ok (a, rest) =>
    match runListRest sep p rest with
    | .error e => .error e
    | .ok (as, rest') => .ok (a :: as, rest')

/-! ## 2. Rests are end pieces -/

theorem suffix_runRightInfix {sep : String} {join : α → α → α} {p : Parser α ε} {ts : List String}
    {a : α} {rest : List String} (h : runRightInfix sep join p ts = .ok (a, rest)) :
    rest <:+ ts := by
  fun_induction runRightInfix sep join p ts generalizing a rest with
  | case1 => simp at h
  | case2 ts a' hp => cases h; exact p.suffix hp
  | case3 => simp at h
  | case4 ts a' rest' b rest'' heq hp ih =>
    cases h
    exact (ih heq).trans ((List.suffix_cons _ _).trans (p.suffix hp))
  | case5 ts a' t rest' hp ht => cases h; exact p.suffix hp

theorem suffix_runLeftRest {sep : String} {join : α → α → α} {p : Parser α ε} {acc : α}
    {ts : List String} {a : α} {rest : List String}
    (h : runLeftRest sep join p acc ts = .ok (a, rest)) : rest <:+ ts := by
  fun_induction runLeftRest sep join p acc ts with
  | case1 => cases h; exact List.suffix_refl _
  | case2 => simp at h
  | case3 acc rest' b rest'' hp ih =>
    exact (ih h).trans ((p.suffix hp).trans (List.suffix_cons _ _))
  | case4 acc t rest' ht => cases h; exact List.suffix_refl _

theorem suffix_runLeftInfix {sep : String} {join : α → α → α} {p : Parser α ε} {ts : List String}
    {a : α} {rest : List String} (h : runLeftInfix sep join p ts = .ok (a, rest)) :
    rest <:+ ts := by
  unfold runLeftInfix at h
  split at h
  · simp at h
  · rename_i b rest' hp
    exact (suffix_runLeftRest h).trans (p.suffix hp)

theorem suffix_runListRest {sep : String} {p : Parser α ε} {ts : List String} {as : List α}
    {rest : List String} (h : runListRest sep p ts = .ok (as, rest)) : rest <:+ ts := by
  fun_induction runListRest sep p ts generalizing as rest with
  | case1 => cases h; exact List.suffix_refl _
  | case2 => simp at h
  | case3 => simp at h
  | case4 rest' a rest'' hp as' rest''' heq ih =>
    cases h
    exact (ih heq).trans ((p.suffix hp).trans (List.suffix_cons _ _))
  | case5 t rest' ht => cases h; exact List.suffix_refl _

theorem suffix_runList {sep : String} {p : Parser α ε} {ts : List String} {as : List α}
    {rest : List String} (h : runList sep p ts = .ok (as, rest)) : rest <:+ ts := by
  unfold runList at h
  split at h
  · simp at h
  · rename_i a rest' hp
    split at h
    · simp at h
    · rename_i as' rest'' hr
      cases h
      exact (suffix_runListRest hr).trans (p.suffix hp)

/-- One or more items, joined from the right. -/
def rightInfix (sep : String) (join : α → α → α) (p : Parser α ε) : Parser α ε :=
  ⟨runRightInfix sep join p, suffix_runRightInfix⟩

/-- One or more items, joined from the left. -/
def leftInfix (sep : String) (join : α → α → α) (p : Parser α ε) : Parser α ε :=
  ⟨runLeftInfix sep join p, suffix_runLeftInfix⟩

/-- One or more items. -/
def list (sep : String) (p : Parser α ε) : Parser (List α) ε :=
  ⟨runList sep p, suffix_runList⟩

/-! ## 3. Fixed symbols -/

/-- Takes one symbol off the front. -/
def expect (symbol : String) : List String → Except ParseFault (List String)
  | [] => .error (.expected symbol none)
  | t :: rest => if t = symbol then .ok rest else .error (.expected symbol (some t))

theorem expect_eq_ok_iff {symbol : String} {ts rest : List String} :
    expect symbol ts = .ok rest ↔ ts = symbol :: rest := by
  cases ts with
  | nil => simp [expect]
  | cons t tail =>
    by_cases h : t = symbol <;> simp [expect, h]

/-- An item and the closing bracket after it; the opening one has been read. -/
def runBracketed (p : Parser α) (ts : List String) : Reading α :=
  match p.run ts with
  | .error e => .error e
  | .ok (a, rest) =>
    match expect ")" rest with
    | .error e => .error e
    | .ok rest' => .ok (a, rest')

theorem suffix_runBracketed {p : Parser α} {ts : List String} {a : α} {rest : List String}
    (h : runBracketed p ts = .ok (a, rest)) : rest <:+ ts := by
  unfold runBracketed at h
  split at h
  · simp at h
  · rename_i b rest' hp
    split at h
    · simp at h
    · rename_i rest'' he
      cases h
      rw [expect_eq_ok_iff] at he
      subst he
      exact (List.suffix_cons _ _).trans (p.suffix hp)

/-- An item and the closing bracket after it. -/
def bracketed (p : Parser α) : Parser α := ⟨runBracketed p, suffix_runBracketed⟩

/-- One or more items and the closing bracket after them. -/
def bracketedList (sep : String) (p : Parser α) : Parser (List α) := bracketed (list sep p)

/-- The first token, whatever it is. -/
def anyToken : Parser String where
  run
    | [] => .error .noToken
    | t :: rest => .ok (t, rest)
  suffix {ts a rest} h := by
    cases ts with
    | nil => simp at h
    | cons t tail => cases h; exact List.suffix_cons _ _

/-- A parser whose result is changed by a function. -/
def map (f : α → β) (p : Parser α ε) : Parser β ε where
  run ts :=
    match p.run ts with
    | .error e => .error e
    | .ok (a, rest) => .ok (f a, rest)
  suffix {ts b rest} h := by
    split at h
    · simp at h
    · rename_i a rest' hp
      cases h
      exact p.suffix hp

/-- Reads a whole text: nothing may be left. -/
def readAll (p : Parser α) (s : String) : Except ParseFault α :=
  match tokenize s with
  | .error e => .error e
  | .ok ts =>
    match p.run ts with
    | .error e => .error e
    | .ok (a, []) => .ok a
    | .ok (_, rest) => .error (.unread rest)

end Parser

end CtlTableau
