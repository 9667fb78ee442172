import CtlTableau.Formula.Parser
import CtlTableau.Proofs.Reading
import Mathlib.Tactic.Tauto

/-!
# The grammar of formulas

`Derives` is the grammar as a relation between tokens and formulas, one rule for every alternative.
The parser reads exactly what it derives (`reads_unitAt`, `run_parser_iff`): a formula is taken where
the next token cannot go on with it. As a parser has one result at most, so has a list of tokens
one tree at most (`parser_reads_grammar`).

How deep the parser was built to nest is of no consequence: tokens that are derived nest no deeper
than there are tokens, as every rule for units takes one.
-/

namespace CtlTableau.Formula

open CtlTableau.Parser

/-! ## 1. The rules -/

/-- The levels at which connectives bind, the loosest first. -/
inductive Level where
  | formula | disjunction | conjunction | unit
  deriving DecidableEq, Repr

/-- What an atom may be called: an identifier that is no operator. -/
def isName (x : String) : Bool := isIdentifier x && !isKeyword x

/-- The tokens of a name that a quantifier binds. It may stand in brackets, and it is not the
    constant. -/
inductive Binder (x : String) : List String → Prop where
  | name (hx : isName x = true) (hne : x ≠ trueName) : Binder x [x]
  | brackets {u : List String} (h : Binder x u) : Binder x ("(" :: (u ++ [")"]))

/-- The tokens of a formula, at the level of a connective that it may have at its root. -/
inductive Derives : Level → Formula → List String → Prop where
  | not {p : Formula} {u : List String} (hp : Derives .unit p u) : Derives .unit (.not p) ("~" :: u)
  | brackets {f : Formula} {u : List String} (hf : Derives .formula f u) :
      Derives .unit f ("(" :: (u ++ [")"]))
  | atom {x : String} (hx : isName x = true) : Derives .unit (.atom x) [x]
  | unary {w : String} {op : UnaryOp} {p : Formula} {u : List String}
      (hw : UnaryOp.ofKeyword? w = some op) (hp : Derives .formula p u) :
      Derives .unit (.unary op p) (w :: "(" :: (u ++ [")"]))
  | binary {w : String} {op : BinaryOp} {p q : Formula} {u v : List String}
      (hw : BinaryOp.ofKeyword? w = some op) (hp : Derives .formula p u)
      (hq : Derives .formula q v) :
      Derives .unit (.binary op p q) (w :: "(" :: (u ++ "," :: (v ++ [")"])))
  | quant {w : String} {k : Quantifier} {x : String} {p : Formula} {u v : List String}
      (hw : Quantifier.ofKeyword? w = some k) (hx : Binder x u) (hp : Derives .formula p v) :
      Derives .unit (.quant k x p) (w :: "(" :: (u ++ "," :: (v ++ [")"])))
  | ofUnit {f : Formula} {u : List String} (h : Derives .unit f u) : Derives .conjunction f u
  | and {p q : Formula} {u v : List String} (hp : Derives .conjunction p u)
      (hq : Derives .unit q v) : Derives .conjunction (.and p q) (u ++ "&" :: v)
  | ofConjunction {f : Formula} {u : List String} (h : Derives .conjunction f u) :
      Derives .disjunction f u
  | or {p q : Formula} {u v : List String} (hp : Derives .disjunction p u)
      (hq : Derives .conjunction q v) : Derives .disjunction (.or p q) (u ++ "|" :: v)
  | ofDisjunction {f : Formula} {u : List String} (h : Derives .disjunction f u) :
      Derives .formula f u
  | imp {p q : Formula} {u v : List String} (hp : Derives .disjunction p u)
      (hq : Derives .formula q v) : Derives .formula (.imp p q) (u ++ "->" :: v)

/-- The next token, if there is one, does not go on with a formula. -/
def Ended (ts : List String) : Prop := ∀ t ∈ ts.head?, t ≠ "&" ∧ t ≠ "|" ∧ t ≠ "->"

variable {f p q : Formula} {u v ts rest : List String} {w x t : String} {l : Level} {n : Nat}

/-- Every formula has a token. -/
theorem Derives.ne_nil (h : Derives l f u) : u ≠ [] := by
  induction h with
  | ofUnit _ ih | ofConjunction _ ih | ofDisjunction _ ih => exact ih
  | and | or | imp => simp
  | _ => nofun

/-- What stands at a tight level stands at the looser ones. -/
theorem Derives.toFormula (h : Derives l f u) : Derives .formula f u := by
  cases l with
  | formula => exact h
  | disjunction => exact .ofDisjunction h
  | conjunction => exact .ofDisjunction (.ofConjunction h)
  | unit => exact .ofDisjunction (.ofConjunction (.ofUnit h))

/-- A name to bind is an atom other than the constant. -/
theorem binder_iff : Binder x u ↔ Derives .formula (.atom x) u ∧ x ≠ trueName := by
  constructor
  · intro h
    induction h with
    | name hx hne => exact ⟨(Derives.atom hx).toFormula, hne⟩
    | brackets _ ih => exact ⟨(Derives.brackets ih.1).toFormula, ih.2⟩
  · rintro ⟨h, hne⟩
    have all : ∀ {l f v}, Derives l f v → f = .atom x → Binder x v := by
      intro l f v h
      induction h with
      | atom hx =>
        intro e
        cases e
        exact .name hx hne
      | brackets _ ih => exact fun e => .brackets (ih e)
      | ofUnit _ ih | ofConjunction _ ih | ofDisjunction _ ih => exact ih
      | _ => nofun
    exact all h rfl

/-! ## 2. Infix levels -/

theorem derives_conjunction_iff :
    Derives .conjunction f u ↔ LeftJoined "&" and (Derives .unit) f u := by
  constructor
  · intro h
    generalize hl : Level.conjunction = l at h
    induction h with
    | ofUnit h => exact .item h
    | and _ hq ihp _ => exact .join (ihp rfl) hq
    | _ => cases hl
  · intro h
    induction h with
    | item h => exact .ofUnit h
    | join _ hq ih => exact .and ih hq

theorem derives_disjunction_iff :
    Derives .disjunction f u ↔ LeftJoined "|" or (Derives .conjunction) f u := by
  constructor
  · intro h
    generalize hl : Level.disjunction = l at h
    induction h with
    | ofConjunction h => exact .item h
    | or _ hq ihp _ => exact .join (ihp rfl) hq
    | _ => cases hl
  · intro h
    induction h with
    | item h => exact .ofConjunction h
    | join _ hq ih => exact .or ih hq

theorem derives_formula_iff :
    Derives .formula f u ↔ RightJoined "->" imp (Derives .disjunction) f u := by
  constructor
  · intro h
    generalize hl : Level.formula = l at h
    induction h with
    | ofDisjunction h => exact .item h
    | imp hp _ _ ihq => exact .join hp (ihq rfl)
    | _ => cases hl
  · intro h
    induction h with
    | item h => exact .ofDisjunction h
    | join hp _ ih => exact .imp hp ih

theorem ended_iff : Ended ts ↔
    ts.head? ≠ some "->" ∧ ts.head? ≠ some "|" ∧ ts.head? ≠ some "&" ∧ True := by
  cases ts with
  | nil => simp [Ended]
  | cons t ts =>
    simp only [Ended, List.head?_cons, Option.mem_some_iff, forall_eq', ne_eq, Option.some.injEq]
    tauto

/-- With units every formula is read. -/
theorem reads_implications {unit : Parser Formula}
    (h : unit.Reads n (Derives .unit) fun _ => True) :
    (implications unit).Reads n (Derives .formula) Ended := by
  have conjunctions : (conjunctions unit).Reads n (Derives .conjunction) _ :=
    (reads_leftInfix h fun _ => trivial).congr (fun _ _ => derives_conjunction_iff.symm)
      fun _ => Iff.rfl
  have disjunctions : (disjunctions unit).Reads n (Derives .disjunction) _ :=
    (reads_leftInfix conjunctions fun ts => ⟨by simp, trivial⟩).congr
      (fun _ _ => derives_disjunction_iff.symm) fun _ => Iff.rfl
  exact (reads_rightInfix disjunctions fun ts => ⟨by simp, by simp, trivial⟩).congr
    (fun _ _ => derives_formula_iff.symm) fun _ => ended_iff.symm

/-! ## 3. Operators with bracketed arguments -/

theorem isKeyword_iff : isKeyword w = true ↔ (∃ op, UnaryOp.ofKeyword? w = some op) ∨
    (∃ op, BinaryOp.ofKeyword? w = some op) ∨ ∃ k, Quantifier.ofKeyword? w = some k := by
  simp only [isKeyword, Bool.or_eq_true, Option.isSome_iff_exists, or_assoc]

/-- No quantifier is an operator with two arguments. -/
theorem ofKeyword?_of_quantifier {k : Quantifier} (h : Quantifier.ofKeyword? w = some k) :
    BinaryOp.ofKeyword? w = none := by
  have hw : k.symbol = w := by
    simpa using List.find?_some h
  subst hw
  cases k <;> decide

theorem application?_eq_some_iff {args : List Formula} : application? w args = some f ↔
    (∃ op p, UnaryOp.ofKeyword? w = some op ∧ args = [p] ∧ f = .unary op p) ∨
    (∃ op p q, BinaryOp.ofKeyword? w = some op ∧ args = [p, q] ∧ f = .binary op p q) ∨
    ∃ k x q, Quantifier.ofKeyword? w = some k ∧ x ≠ trueName ∧ args = [.atom x, q] ∧
      f = .quant k x q := by
  constructor
  · intro h
    unfold application? at h
    split at h
    · next p =>
      obtain ⟨op, hop, e⟩ := Option.map_eq_some_iff.1 h
      exact Or.inl ⟨op, p, hop, rfl, e.symm⟩
    · next p q =>
      split at h
      · next op hop =>
        cases h
        exact Or.inr (Or.inl ⟨op, p, q, hop, rfl, rfl⟩)
      · split at h
        · next k x hk =>
          split at h
          · cases h
          · next hx =>
            cases h
            exact Or.inr (Or.inr ⟨k, x, q, hk, hx, rfl, rfl⟩)
        · cases h
    · cases h
  · intro h
    rcases h with ⟨op, p, hop, rfl, rfl⟩ | ⟨op, p, q, hop, rfl, rfl⟩ |
      ⟨k, x, q, hk, hx, rfl, rfl⟩
    · simp [application?, hop]
    · simp [application?, hop]
    · simp [application?, ofKeyword?_of_quantifier hk, hk, hx]

theorem items_singleton_iff : Items "," (Derives .formula) [p] u ↔ Derives .formula p u := by
  constructor
  · intro h
    cases h with
    | cons hp hrest =>
      cases hrest
      rwa [List.append_nil]
  · intro h
    have one : Items "," (Derives .formula) [p] (u ++ []) := .cons h .nil
    rwa [List.append_nil] at one

theorem items_pair_iff : Items "," (Derives .formula) [p, q] u ↔
    ∃ v w, u = v ++ "," :: w ∧ Derives .formula p v ∧ Derives .formula q w := by
  constructor
  · intro h
    cases h with
    | cons hp hrest =>
      cases hrest with
      | cons hq hrest =>
        cases hrest
        exact ⟨_, _, by rw [List.append_nil], hp, hq⟩
  · intro h
    obtain ⟨v, w, rfl, hp, hq⟩ := h
    have two : Items "," (Derives .formula) [p, q] (v ++ "," :: (w ++ [])) :=
      .cons hp (.cons hq .nil)
    rwa [List.append_nil] at two

/-- An operator with its arguments is what the three rules for operators derive. -/
theorem derives_operator_iff (hw : isKeyword w = true) : Derives .unit f (w :: u) ↔
    ∃ args v, u = "(" :: (v ++ [")"]) ∧ Items "," (Derives .formula) args v ∧
      application? w args = some f := by
  constructor
  · intro h
    generalize e : w :: u = ts at h
    cases h with
    | not =>
      cases e
      exact absurd hw (by decide)
    | brackets =>
      cases e
      exact absurd hw (by decide)
    | atom hx =>
      cases e
      rw [isName, hw] at hx
      simp at hx
    | unary hop hp =>
      cases e
      exact ⟨_, _, rfl, items_singleton_iff.2 hp,
        application?_eq_some_iff.2 (Or.inl ⟨_, _, hop, rfl, rfl⟩)⟩
    | @binary _ _ _ _ u v hop hp hq =>
      cases e
      exact ⟨_, u ++ "," :: v, by simp, items_pair_iff.2 ⟨_, _, rfl, hp, hq⟩,
        application?_eq_some_iff.2 (Or.inr (Or.inl ⟨_, _, _, hop, rfl, rfl⟩))⟩
    | @quant _ _ _ _ u v hk hx hp =>
      cases e
      obtain ⟨hx, hne⟩ := binder_iff.1 hx
      exact ⟨_, u ++ "," :: v, by simp, items_pair_iff.2 ⟨_, _, rfl, hx, hp⟩,
        application?_eq_some_iff.2 (Or.inr (Or.inr ⟨_, _, _, hk, hne, rfl, rfl⟩))⟩
  · intro h
    obtain ⟨args, v, rfl, hargs, happ⟩ := h
    rcases application?_eq_some_iff.1 happ with ⟨op, p, hop, rfl, rfl⟩ |
      ⟨op, p, q, hop, rfl, rfl⟩ | ⟨k, x, q, hk, hx, rfl, rfl⟩
    · exact .unary hop (items_singleton_iff.1 hargs)
    · obtain ⟨v, v', rfl, hp, hq⟩ := items_pair_iff.1 hargs
      rw [List.append_assoc, List.cons_append]
      exact .binary hop hp hq
    · obtain ⟨v, v', rfl, hp, hq⟩ := items_pair_iff.1 hargs
      rw [List.append_assoc, List.cons_append]
      exact .quant hk (binder_iff.2 ⟨hp, hx⟩) hq

/-- The arguments of an operator are read. -/
theorem runArguments_iff {formula : Parser Formula}
    (h : formula.Reads n (Derives .formula) Ended) (hw : isKeyword w = true)
    (hn : ts.length ≤ n) : runArguments formula w ts = .ok (f, rest) ↔
      ∃ u, ts = u ++ rest ∧ Derives .unit f (w :: u) := by
  have list : (bracketedList "," formula).Reads n _ _ :=
    reads_bracketed (reads_list h fun _ => by simp [Ended]) fun _ => by simp [Ended]
  constructor
  · intro hrun
    rw [runArguments] at hrun
    split at hrun
    · cases hrun
    · next ts' hopen =>
      rw [expect_eq_ok_iff] at hopen
      subst hopen
      rw [List.length_cons] at hn
      split at hrun
      · cases hrun
      · next args rest' hargs =>
        obtain ⟨w', rfl, ⟨v, rfl, hv⟩, -⟩ := (list ts' (by omega) args rest').1 hargs
        split at hrun
        · next happ =>
          cases hrun
          exact ⟨"(" :: (v ++ [")"]), rfl,
            (derives_operator_iff hw).2 ⟨args, v, rfl, hv, happ⟩⟩
        · cases hrun
  · rintro ⟨u, e, hf⟩
    subst e
    obtain ⟨args, v, rfl, hv, happ⟩ := (derives_operator_iff hw).1 hf
    rw [List.cons_append, List.length_cons] at hn
    have hargs : (bracketedList "," formula).run (v ++ [")"] ++ rest) = .ok (args, rest) :=
      (list _ (by omega) args rest).2 ⟨_, rfl, ⟨v, rfl, hv⟩, trivial⟩
    rw [List.cons_append, runArguments, expect, if_pos rfl]
    simp only [hargs, happ]

/-! ## 4. Units -/

theorem runUnit_of_isKeyword {inner : Parser Formula} (hw : isKeyword w = true) :
    runUnit inner (w :: ts) = runArguments (implications inner) w ts := by
  have hnot : w ≠ "~" := fun e => absurd hw (e ▸ by decide)
  have hopen : w ≠ "(" := fun e => absurd hw (e ▸ by decide)
  rw [runUnit, if_neg hnot, if_neg hopen, if_pos hw]

theorem runUnit_of_isName {inner : Parser Formula} (hx : isName x = true) :
    runUnit inner (x :: ts) = .ok (.atom x, ts) := by
  have hnot : x ≠ "~" := fun e => absurd hx (e ▸ by decide)
  have hopen : x ≠ "(" := fun e => absurd hx (e ▸ by decide)
  simp only [isName, Bool.and_eq_true, Bool.not_eq_true'] at hx
  rw [runUnit, if_neg hnot, if_neg hopen, if_neg (by simp [hx.2]), if_pos hx.1]

/-- What is read as a unit derives it. Every rule says with its first token which branch is taken. -/
theorem exists_derives_of_runUnit {inner : Parser Formula}
    (h : inner.Reads n (Derives .unit) fun _ => True) (hn : ts.length ≤ n)
    (hrun : runUnit inner (t :: ts) = .ok (f, rest)) :
    ∃ u, ts = u ++ rest ∧ Derives .unit f (t :: u) := by
  have formulas := reads_implications h
  rw [runUnit] at hrun
  split at hrun
  · next ht =>
    subst ht
    split at hrun
    · cases hrun
    · next p rest' hp =>
      cases hrun
      obtain ⟨u, rfl, hp, -⟩ := (h ts hn p rest).1 hp
      exact ⟨u, rfl, .not hp⟩
  · split at hrun
    · next ht =>
      subst ht
      have brackets := reads_bracketed formulas fun _ => by simp [Ended]
      obtain ⟨w, rfl, ⟨u, rfl, hf⟩, -⟩ := (brackets ts hn f rest).1 hrun
      exact ⟨u ++ [")"], rfl, .brackets hf⟩
    · split at hrun
      · next hw => exact (runArguments_iff formulas hw hn).1 hrun
      · split at hrun
        · next hw hid =>
          cases hrun
          exact ⟨[], rfl, .atom (by simp [isName, hw, hid])⟩
        · cases hrun

/-- What derives a unit is read as one. -/
theorem runUnit_of_derives {inner : Parser Formula}
    (h : inner.Reads n (Derives .unit) fun _ => True) (hn : (u ++ rest).length ≤ n)
    (hf : Derives .unit f (t :: u)) : runUnit inner (t :: (u ++ rest)) = .ok (f, rest) := by
  have formulas := reads_implications h
  by_cases hw : isKeyword t = true
  · rw [runUnit_of_isKeyword hw]
    exact (runArguments_iff formulas hw hn).2 ⟨u, rfl, hf⟩
  · generalize e : t :: u = v at hf
    cases hf with
    | not hp =>
      cases e
      rw [runUnit, if_pos rfl, (h _ hn _ _).2 ⟨_, rfl, hp, trivial⟩]
    | brackets hf =>
      cases e
      have brackets := reads_bracketed formulas fun _ => by simp [Ended]
      rw [runUnit, if_neg (by decide), if_pos rfl]
      exact (brackets _ hn _ _).2 ⟨_, rfl, ⟨_, rfl, hf⟩, trivial⟩
    | atom hx =>
      cases e
      exact runUnit_of_isName hx
    | unary hop =>
      cases e
      exact absurd (isKeyword_iff.2 (Or.inl ⟨_, hop⟩)) hw
    | binary hop =>
      cases e
      exact absurd (isKeyword_iff.2 (Or.inr (Or.inl ⟨_, hop⟩))) hw
    | quant hk =>
      cases e
      exact absurd (isKeyword_iff.2 (Or.inr (Or.inr ⟨_, hk⟩))) hw

/-- One more unit around others. -/
theorem reads_runUnit {inner outer : Parser Formula}
    (h : inner.Reads n (Derives .unit) fun _ => True) (houter : outer.run = runUnit inner) :
    outer.Reads (n + 1) (Derives .unit) fun _ => True := by
  intro ts hn f rest
  rw [houter]
  cases ts with
  | nil =>
    refine iff_of_false (by simp [runUnit]) fun h => ?_
    obtain ⟨u, e, hf, -⟩ := h
    exact hf.ne_nil (List.append_eq_nil_iff.1 e.symm).1
  | cons t ts =>
    have hn : ts.length ≤ n := Nat.le_of_succ_le_succ hn
    constructor
    · intro hrun
      obtain ⟨u, rfl, hf⟩ := exists_derives_of_runUnit h hn hrun
      exact ⟨t :: u, rfl, hf, trivial⟩
    · rintro ⟨u, e, hf, -⟩
      cases u with
      | nil => exact absurd rfl hf.ne_nil
      | cons t' u =>
        cases e
        exact runUnit_of_derives h hn hf

/-- Units are read, if there are no more tokens than units may nest. -/
theorem reads_unitAt (n : Nat) : (unitAt n).Reads n (Derives .unit) fun _ => True := by
  induction n with
  | zero =>
    intro ts hn f rest
    refine iff_of_false nofun fun h => ?_
    obtain ⟨u, e, hf, -⟩ := h
    rw [List.eq_nil_of_length_eq_zero (Nat.le_zero.1 hn)] at e
    exact hf.ne_nil (List.append_eq_nil_iff.1 e.symm).1
  | succ n ih => exact reads_runUnit ih rfl

/-! ## 5. Formulas -/

/-- The parser takes the pieces that the grammar derives, before a token that ends them. -/
theorem run_parser_iff : parser.run ts = .ok (f, rest) ↔
    ∃ u, ts = u ++ rest ∧ Derives .formula f u ∧ Ended rest :=
  reads_implications (reads_unitAt (ts.length + 1)) ts (Nat.le_succ _) f rest

/-- Tokens have one tree at most. -/
theorem Derives.unique {g : Formula} (hf : Derives .formula f u) (hg : Derives .formula g u) :
    f = g := by
  have read : ∀ {f}, Derives .formula f u → parser.run u = .ok (f, []) := fun h =>
    run_parser_iff.2 ⟨u, (List.append_nil u).symm, h, nofun⟩
  have e := read hf
  rw [read hg] at e
  cases e
  rfl

/-- **The parser accepts exactly the grammar.** It returns a formula and a rest if and only if the
    tokens before the rest derive the formula and the rest does not go on with it; otherwise it
    returns a fault in reading. With every formula it takes a token, and no tokens derive two
    formulas. -/
theorem parser_reads_grammar (ts : List String) :
    (∀ f rest, parser.run ts = .ok (f, rest) ↔
      ∃ u, ts = u ++ rest ∧ Derives .formula f u ∧ Ended rest) ∧
    ((∀ f u rest, ts = u ++ rest → Derives .formula f u → ¬ Ended rest) →
      ∃ fault : ParseFault, parser.run ts = .error fault) ∧
    (∀ f rest, parser.run ts = .ok (f, rest) → rest.length < ts.length) ∧
    ∀ f g, Derives .formula f ts → Derives .formula g ts → f = g := by
  refine ⟨fun f rest => run_parser_iff, fun none => ?_, fun f rest h => ?_,
    fun f g => Derives.unique⟩
  · cases hrun : parser.run ts with
    | error fault => exact ⟨fault, rfl⟩
    | ok r =>
      obtain ⟨u, e, hf, ended⟩ := run_parser_iff.1 hrun
      exact absurd ended (none _ u _ e hf)
  · obtain ⟨u, rfl, hf, -⟩ := run_parser_iff.1 h
    have pos := List.length_pos_iff.2 hf.ne_nil
    rw [List.length_append]
    omega

/-- A quantifier whose name stands in brackets, an implication after it, and a bracket that belongs to
    neither. -/
theorem parser_reads_bracketed_name :
    parser.run ["A", "(", "(", "x", ")", ",", "x", "&", "q", ")", "->", "r", ")"] =
      .ok (.imp (.all "x" (.and (.atom "x") (.atom "q"))) (.atom "r"), [")"]) ∧
    [")"].length < ["A", "(", "(", "x", ")", ",", "x", "&", "q", ")", "->", "r", ")"].length := by
  have name : ∀ x, isName x = true → Derives .unit (.atom x) [x] := fun _ => .atom
  have body : Derives .formula (.and (.atom "x") (.atom "q")) ["x", "&", "q"] :=
    (Derives.and (.ofUnit (name "x" rfl)) (name "q" rfl)).toFormula
  have all : Derives .unit (.all "x" (.and (.atom "x") (.atom "q")))
      ["A", "(", "(", "x", ")", ",", "x", "&", "q", ")"] :=
    .quant rfl (.brackets (.name rfl (by decide))) body
  have whole := Derives.imp (.ofConjunction (.ofUnit all)) (name "r" rfl).toFormula
  obtain ⟨accepts, -, takes, -⟩ := parser_reads_grammar
    ["A", "(", "(", "x", ")", ",", "x", "&", "q", ")", "->", "r", ")"]
  have read := (accepts _ [")"]).2 ⟨_, rfl, whole, by simp [Ended]⟩
  exact ⟨read, takes _ _ read⟩

end CtlTableau.Formula
