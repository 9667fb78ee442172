import CtlTableau.Parser

/-!
# What parsers read

`p.Reads n D Ends` tells a parser from outside: on lists of at most `n` tokens it takes exactly the
pieces to which `D` gives a meaning, each only before a rest that may follow (`Ends`). The bound on
the tokens is there because parsers for nested texts are built for some depth of nesting.

Whatever reads items with a separator does the same to the tokens (`runLeftInfix_eq`,
`runRightInfix_eq`), so it is told of `list` only what the combinators read (`reads_list`), and the
infix combinators follow from how they join the items (`reads_leftInfix`, `reads_rightInfix`).
-/

namespace CtlTableau.Parser

variable {α ε : Type} {sep : String} {join : α → α → α} {p : Parser α ε} {n : Nat}
  {D : α → List String → Prop} {Ends : List String → Prop}

/-! ## 1. Parsers and the pieces that they take -/

/-- On at most `n` tokens the parser takes exactly the pieces that mean something, each before a rest
    that may follow it. -/
def Reads (p : Parser α ε) (n : Nat) (D : α → List String → Prop) (Ends : List String → Prop) :
    Prop :=
  ∀ ts : List String, ts.length ≤ n → ∀ a rest,
    p.run ts = .ok (a, rest) ↔ ∃ u, ts = u ++ rest ∧ D a u ∧ Ends rest

/-- What means the same is read the same. -/
theorem Reads.congr {D' : α → List String → Prop} {Ends' : List String → Prop}
    (hp : p.Reads n D Ends) (hD : ∀ a u, D a u ↔ D' a u) (hE : ∀ ts, Ends ts ↔ Ends' ts) :
    p.Reads n D' Ends' := by
  intro ts hn a rest
  rw [hp ts hn]
  exact exists_congr fun u => and_congr_right fun _ => and_congr (hD a u) (hE rest)

/-! ## 2. Items with separators -/

/-- Further items, each after a separator. -/
inductive Further (sep : String) (D : α → List String → Prop) : List α → List String → Prop where
  | nil : Further sep D [] []
  | cons {a : α} {u : List String} {as : List α} {v : List String} (ha : D a u)
      (has : Further sep D as v) : Further sep D (a :: as) (sep :: (u ++ v))

/-- One or more items with a separator between them. -/
inductive Items (sep : String) (D : α → List String → Prop) : List α → List String → Prop where
  | cons {a : α} {u : List String} {as : List α} {v : List String} (ha : D a u)
      (has : Further sep D as v) : Items sep D (a :: as) (u ++ v)

/-- One or more items, joined from the left. -/
inductive LeftJoined (sep : String) (join : α → α → α) (D : α → List String → Prop) :
    α → List String → Prop where
  | item {a : α} {u : List String} (ha : D a u) : LeftJoined sep join D a u
  | join {a b : α} {u v : List String} (ha : LeftJoined sep join D a u) (hb : D b v) :
      LeftJoined sep join D (join a b) (u ++ sep :: v)

/-- One or more items, joined from the right. -/
inductive RightJoined (sep : String) (join : α → α → α) (D : α → List String → Prop) :
    α → List String → Prop where
  | item {a : α} {u : List String} (ha : D a u) : RightJoined sep join D a u
  | join {a b : α} {u v : List String} (ha : D a u) (hb : RightJoined sep join D b v) :
      RightJoined sep join D (join a b) (u ++ sep :: v)

/-- Joins items from the right. -/
def joinRight (join : α → α → α) : α → List α → α
  | a, [] => a
  | a, b :: bs => join a (joinRight join b bs)

theorem Further.snoc {as : List α} {v w : List String} {c : α} (h : Further sep D as v)
    (hc : D c w) : Further sep D (as ++ [c]) (v ++ sep :: w) := by
  induction h with
  | nil =>
    have one : Further sep D [c] (sep :: (w ++ [])) := .cons hc .nil
    rwa [List.append_nil] at one
  | cons ha _ ih =>
    have more := Further.cons ha ih
    rwa [← List.append_assoc] at more

theorem LeftJoined.further {as : List α} {v w : List String} {a : α}
    (ha : LeftJoined sep join D a w) (h : Further sep D as v) :
    LeftJoined sep join D (as.foldl join a) (w ++ v) := by
  induction h generalizing a w with
  | nil => rwa [List.append_nil]
  | @cons b u bs v hb _ ih =>
    have more := ih (.join ha hb)
    rwa [List.append_assoc, List.cons_append] at more

/-- Items joined from the left are a list of items, folded. -/
theorem leftJoined_iff {a : α} {w : List String} : LeftJoined sep join D a w ↔
    ∃ b as u v, w = u ++ v ∧ D b u ∧ Further sep D as v ∧ a = as.foldl join b := by
  constructor
  · intro h
    induction h with
    | @item a u ha => exact ⟨a, [], u, [], (List.append_nil u).symm, ha, .nil, rfl⟩
    | @join a c w1 w2 _ hc ih =>
      obtain ⟨b, as, u, v, rfl, hb, has, rfl⟩ := ih
      refine ⟨b, as ++ [c], u, v ++ sep :: w2, List.append_assoc .., hb, has.snoc hc, ?_⟩
      rw [List.foldl_append]
      rfl
  · intro h
    obtain ⟨b, as, u, v, rfl, hb, has, rfl⟩ := h
    exact LeftJoined.further (.item hb) has

/-- Items joined from the right are a list of items, folded. -/
theorem rightJoined_iff {a : α} {w : List String} : RightJoined sep join D a w ↔
    ∃ b as u v, w = u ++ v ∧ D b u ∧ Further sep D as v ∧ a = joinRight join b as := by
  constructor
  · intro h
    induction h with
    | @item a u ha => exact ⟨a, [], u, [], (List.append_nil u).symm, ha, .nil, rfl⟩
    | @join a c w1 w2 ha _ ih =>
      obtain ⟨b, as, u, v, rfl, hb, has, rfl⟩ := ih
      exact ⟨a, b :: as, w1, sep :: (u ++ v), rfl, ha, .cons hb has, rfl⟩
  · intro h
    obtain ⟨b, as, u, v, rfl, hb, has, rfl⟩ := h
    induction has generalizing b u with
    | nil =>
      rw [List.append_nil]
      exact .item hb
    | cons hc _ ih => exact .join hb (ih _ _ hc)

/-! ## 3. The combinators do the same to the tokens -/

theorem runListRest_of_ne {ts : List String} (h : ts.head? ≠ some sep) :
    runListRest sep p ts = .ok ([], ts) := by
  cases ts with
  | nil => rw [runListRest]
  | cons t ts => rw [runListRest, if_neg fun e => h (congrArg some e)]

theorem runListRest_sep (ts : List String) :
    runListRest sep p (sep :: ts) = match p.run ts with
      | .error e => .error e
      | .ok (a, ts') => (runListRest sep p ts').map fun r => (a :: r.1, r.2) := by
  rw [runListRest, if_pos rfl]
  split
  · next e h => rw [h]
  · next a ts' h =>
    rw [h]
    dsimp only
    cases runListRest sep p ts' <;> rfl

theorem runLeftRest_eq (sep : String) (join : α → α → α) (p : Parser α ε) (acc : α)
    (ts : List String) : runLeftRest sep join p acc ts =
      (runListRest sep p ts).map fun r => (r.1.foldl join acc, r.2) := by
  fun_induction runLeftRest sep join p acc ts with
  | case1 => rw [runListRest]; rfl
  | case2 acc ts e hp => rw [runListRest_sep, hp]; rfl
  | case3 acc ts b ts' hp ih =>
    rw [ih, runListRest_sep, hp]
    dsimp only
    cases runListRest sep p ts' <;> rfl
  | case4 acc t ts ht => rw [runListRest, if_neg ht]; rfl

theorem runList_eq (sep : String) (p : Parser α ε) (ts : List String) :
    runList sep p ts = match p.run ts with
      | .error e => .error e
      | .ok (a, ts') => (runListRest sep p ts').map fun r => (a :: r.1, r.2) := by
  rw [runList]
  cases p.run ts with
  | error e => rfl
  | ok r =>
    dsimp only
    cases runListRest sep p r.2 <;> rfl

/-- Joining from the left takes the tokens that the list of items takes. -/
theorem runLeftInfix_eq (sep : String) (join : α → α → α) (p : Parser α ε) (ts : List String) :
    runLeftInfix sep join p ts = match p.run ts with
      | .error e => .error e
      | .ok (a, ts') => (runListRest sep p ts').map fun r => (r.1.foldl join a, r.2) := by
  rw [runLeftInfix]
  cases p.run ts with
  | error e => rfl
  | ok r => exact runLeftRest_eq ..

/-- Joining from the right takes the tokens that the list of items takes. -/
theorem runRightInfix_eq (sep : String) (join : α → α → α) (p : Parser α ε) (ts : List String) :
    runRightInfix sep join p ts = match p.run ts with
      | .error e => .error e
      | .ok (a, ts') => (runListRest sep p ts').map fun r => (joinRight join a r.1, r.2) := by
  fun_induction runRightInfix sep join p ts with
  | case1 ts e hp => rw [hp]
  | case2 ts a hp => simp only [hp, runListRest]; rfl
  | case3 ts a rest e hr hp ih =>
    rw [hr] at ih
    simp only [hp, runListRest_sep]
    cases hrun : p.run rest with
    | error e' =>
      rw [hrun] at ih
      exact ih
    | ok r =>
      simp only [hrun] at ih ⊢
      cases hrest : runListRest sep p r.2 with
      | error e' =>
        rw [hrest] at ih
        exact ih
      | ok r' =>
        rw [hrest] at ih
        cases ih
  | case4 ts a rest b rest' hr hp ih =>
    rw [hr] at ih
    simp only [hp, runListRest_sep]
    cases hrun : p.run rest with
    | error e' =>
      rw [hrun] at ih
      cases ih
    | ok r =>
      simp only [hrun] at ih ⊢
      cases hrest : runListRest sep p r.2 with
      | error e' =>
        rw [hrest] at ih
        cases ih
      | ok r' =>
        rw [hrest] at ih
        cases ih
        rfl
  | case5 ts a t rest hp ht => simp only [hp, runListRest, if_neg ht]; rfl

/-! ## 4. What the combinators read -/

/-- Further items are read, from a place where an item may end. -/
theorem runListRest_iff (hp : p.Reads n D Ends) (hsep : ∀ ts, Ends (sep :: ts))
    {ts : List String} (hn : ts.length ≤ n) {as : List α} {rest : List String} :
    runListRest sep p ts = .ok (as, rest) ∧ Ends ts ↔
      ∃ v, ts = v ++ rest ∧ Further sep D as v ∧ rest.head? ≠ some sep ∧ Ends rest := by
  constructor
  · rintro ⟨h, he⟩
    fun_induction runListRest sep p ts generalizing as rest with
    | case1 =>
      cases h
      exact ⟨[], rfl, .nil, by simp, he⟩
    | case2 => cases h
    | case3 => cases h
    | case4 ts a ts' hrun bs rest' heq ih =>
      cases h
      rw [List.length_cons] at hn
      obtain ⟨u, rfl, ha, he'⟩ := (hp ts (by omega) a ts').1 hrun
      rw [List.length_append] at hn
      obtain ⟨v, rfl, hv, hrest⟩ := ih (by omega) heq he'
      refine ⟨sep :: (u ++ v), ?_, .cons ha hv, hrest⟩
      rw [List.cons_append, List.append_assoc]
    | case5 t ts ht =>
      cases h
      exact ⟨[], rfl, .nil, fun e => ht (Option.some.inj e), he⟩
  · rintro ⟨v, e, hv, hrest⟩
    induction hv generalizing ts with
    | nil =>
      subst e
      exact ⟨runListRest_of_ne hrest.1, hrest.2⟩
    | @cons a u as v ha _ ih =>
      subst e
      rw [List.cons_append, List.append_assoc, List.length_cons, List.length_append] at hn
      obtain ⟨hv, he⟩ := @ih (v ++ rest) (by omega) rfl
      have hrun : p.run (u ++ (v ++ rest)) = .ok (a, v ++ rest) :=
        (hp _ (by rw [List.length_append]; omega) _ _).2 ⟨u, rfl, ha, he⟩
      rw [List.cons_append, List.append_assoc, runListRest_sep, hrun]
      simp only [hv]
      exact ⟨rfl, hsep _⟩

/-- An item and further items, whatever is made of them. -/
theorem reads_items {β : Type} {q : Parser β ε} (make : α → List α → β) (hp : p.Reads n D Ends)
    (hsep : ∀ ts, Ends (sep :: ts))
    (hq : ∀ ts, q.run ts = match p.run ts with
      | .error e => .error e
      | .ok (a, ts') => (runListRest sep p ts').map fun r => (make a r.1, r.2)) :
    q.Reads n (fun b w => ∃ a as u v, w = u ++ v ∧ D a u ∧ Further sep D as v ∧ b = make a as)
      fun ts => ts.head? ≠ some sep ∧ Ends ts := by
  intro ts hn b rest
  rw [hq]
  constructor
  · intro h
    cases hrun : p.run ts with
    | error e =>
      rw [hrun] at h
      cases h
    | ok r =>
      obtain ⟨a, ts'⟩ := r
      obtain ⟨u, rfl, ha, he⟩ := (hp ts hn a ts').1 hrun
      rw [hrun] at h
      cases hrest : runListRest sep p ts' with
      | error e =>
        simp only [hrest] at h
        cases h
      | ok r =>
        obtain ⟨as, rest'⟩ := r
        simp only [hrest] at h
        cases h
        rw [List.length_append] at hn
        obtain ⟨v, rfl, hv, hends⟩ := (runListRest_iff hp hsep (by omega)).1 ⟨hrest, he⟩
        exact ⟨u ++ v, (List.append_assoc ..).symm, ⟨a, as, u, v, rfl, ha, hv, rfl⟩, hends⟩
  · rintro ⟨w, e, ⟨a, as, u, v, ew, ha, hv, eb⟩, hends⟩
    subst e ew eb
    rw [List.append_assoc, List.length_append] at hn
    obtain ⟨hrest, he⟩ := (runListRest_iff hp hsep (by omega)).2 ⟨v, rfl, hv, hends⟩
    have hrun : p.run (u ++ (v ++ rest)) = .ok (a, v ++ rest) :=
      (hp _ (by rw [List.length_append]; omega) _ _).2 ⟨u, rfl, ha, he⟩
    rw [List.append_assoc, hrun]
    simp only [hrest]
    rfl

/-- What `list` reads. -/
theorem reads_list (hp : p.Reads n D Ends) (hsep : ∀ ts, Ends (sep :: ts)) :
    (list sep p).Reads n (Items sep D) fun ts => ts.head? ≠ some sep ∧ Ends ts := by
  refine (reads_items List.cons hp hsep (runList_eq sep p)).congr (fun as w => ?_) fun _ => Iff.rfl
  constructor
  · rintro ⟨a, as, u, v, ew, ha, hv, eas⟩
    subst ew eas
    exact .cons ha hv
  · rintro ⟨ha, hv⟩
    exact ⟨_, _, _, _, rfl, ha, hv, rfl⟩

/-- What `leftInfix` reads. -/
theorem reads_leftInfix (hp : p.Reads n D Ends) (hsep : ∀ ts, Ends (sep :: ts)) :
    (leftInfix sep join p).Reads n (LeftJoined sep join D)
      fun ts => ts.head? ≠ some sep ∧ Ends ts :=
  (reads_items (fun a as => as.foldl join a) hp hsep (runLeftInfix_eq sep join p)).congr
    (fun _ _ => leftJoined_iff.symm) fun _ => Iff.rfl

/-- What `rightInfix` reads. -/
theorem reads_rightInfix (hp : p.Reads n D Ends) (hsep : ∀ ts, Ends (sep :: ts)) :
    (rightInfix sep join p).Reads n (RightJoined sep join D)
      fun ts => ts.head? ≠ some sep ∧ Ends ts :=
  (reads_items (joinRight join) hp hsep (runRightInfix_eq sep join p)).congr
    (fun _ _ => rightJoined_iff.symm) fun _ => Iff.rfl

/-- What `bracketed` reads; the bracket may be followed by anything. -/
theorem reads_bracketed {p : Parser α} (hp : p.Reads n D Ends) (hclose : ∀ ts, Ends (")" :: ts)) :
    (bracketed p).Reads n (fun a w => ∃ u, w = u ++ [")"] ∧ D a u) fun _ => True := by
  intro ts hn a rest
  show runBracketed p ts = _ ↔ _
  rw [runBracketed]
  constructor
  · intro h
    cases hrun : p.run ts with
    | error e =>
      rw [hrun] at h
      cases h
    | ok r =>
      obtain ⟨b, ts'⟩ := r
      obtain ⟨u, rfl, hb, -⟩ := (hp ts hn b ts').1 hrun
      rw [hrun] at h
      cases hc : expect ")" ts' with
      | error e =>
        simp only [hc] at h
        cases h
      | ok rest' =>
        simp only [hc] at h
        cases h
        rw [expect_eq_ok_iff] at hc
        subst hc
        exact ⟨u ++ [")"], by simp, ⟨u, rfl, hb⟩, trivial⟩
  · rintro ⟨w, e, ⟨u, ew, ha⟩, -⟩
    subst e ew
    rw [List.append_assoc, List.singleton_append] at hn ⊢
    rw [(hp _ hn a (")" :: rest)).2 ⟨u, rfl, ha, hclose rest⟩]
    rfl

end CtlTableau.Parser
