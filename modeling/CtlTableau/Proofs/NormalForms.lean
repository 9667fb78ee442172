import CtlTableau.NormalForm.Negation
import CtlTableau.NormalForm.Prenex
import CtlTableau.Proofs.Encoding
import CtlTableau.Proofs.Replacement
import CtlTableau.Proofs.Runs
import CtlTableau.Proofs.Variables

/-!
# Normal forms keep the truth

Negation normal form keeps the value of a boolean formula under every valuation, and the form of the
negation denies it (`eval_signed`). Prenex form keeps value and free names as well (`prenex_agrees`).
A quantifier may move over a formula that does not mention its name, and names are replaced by fresh
ones until that is so; what makes drawn names fresh is that the formulas at hand hold no name drawn
with the next number or a later one (`OlderThan`), which every draw preserves as it raises the number.
-/

namespace CtlTableau

/-! ## 1. Drawn names -/

namespace Tickets

theorem toList_name (base : String) (n : Nat) :
    (name base n).toList = base.toList ++ '\'' :: (toString n).toList := by
  simp [name, String.toList_append]

/-- The number can be read off a drawn name: it stands after the last prime. -/
theorem name_inj {base base' : String} {m n : Nat} (h : name base m = name base' n) :
    base = base' ∧ m = n := by
  have h := congrArg (fun s => s.toList.reverse) h
  simp only [toList_name, List.reverse_append, List.reverse_cons, List.append_assoc,
    List.singleton_append] at h
  have digits : ∀ k : Nat, '\'' ∉ (toString k).toList.reverse := fun k hk =>
    not_mem_toString (by decide) k (List.mem_reverse.1 hk)
  obtain ⟨hn, hb⟩ := SymbolicState.append_cons_inj (digits m) (digits n) h
  exact ⟨String.toList_inj.1 (List.reverse_inj.1 hb),
    toString_nat_inj (String.toList_inj.1 (List.reverse_inj.1 hn))⟩

theorem prime_mem_name (base : String) (n : Nat) : '\'' ∈ (name base n).toList := by
  rw [toList_name]
  exact List.mem_append_right _ List.mem_cons_self

theorem name_ne_true (base : String) (n : Nat) : name base n ≠ Formula.trueName := by
  intro e
  have h := prime_mem_name base n
  rw [e] at h
  revert h
  decide

/-- The name was not drawn with the number or a later one. -/
def Older (n : Nat) (x : String) : Prop := ∀ base k, x = name base k → k < n

theorem Older.mono {m n : Nat} {x : String} (h : Older m x) (hmn : m ≤ n) : Older n x :=
  fun base k e => Nat.lt_of_lt_of_le (h base k e) hmn

theorem older_of_plain {x : String} (h : '\'' ∉ x.toList) (n : Nat) : Older n x := by
  rintro base k rfl
  exact absurd (prime_mem_name base k) h

theorem older_name (base : String) (n : Nat) : Older (n + 1) (name base n) := by
  intro base' k e
  rw [(name_inj e).2]
  exact Nat.lt_succ_self k

end Tickets

namespace Formula

open Tickets

/-- None of the names was drawn with the number or a later one. -/
def OlderThan (n : Nat) (f : Formula) : Prop := ∀ x ∈ f.names, Older n x

theorem OlderThan.mono {m n : Nat} {f : Formula} (h : f.OlderThan m) (hmn : m ≤ n) :
    f.OlderThan n := fun x hx => (h x hx).mono hmn

theorem olderThan_of_plain {f : Formula} (h : ∀ x ∈ f.names, '\'' ∉ x.toList) (n : Nat) :
    f.OlderThan n := fun x hx => older_of_plain (h x hx) n

/-- The next name to be drawn is not mentioned. -/
theorem OlderThan.name_not_mem {n : Nat} {f : Formula} (h : f.OlderThan n) (base : String) :
    name base n ∉ f.names := fun hx => Nat.lt_irrefl n (h _ hx base n rfl)

/-! ## 2. Negation normal form -/

/-- Moving negations down leaves the names where they are. -/
theorem names_signed (f : Formula) (b : Bool) :
    (f.signed b).names = f.names ∧ (f.signed b).freeNames = f.freeNames ∧
      (f.signed b).boundNames = f.boundNames := by
  induction f generalizing b with
  | atom x => cases b <;> exact ⟨rfl, rfl, rfl⟩
  | unary op p ih => cases op <;> simp [signed, names, freeNames, boundNames, ih]
  | binary op p q ihp ihq => cases op <;> simp [signed, names, freeNames, boundNames, ihp, ihq]
  | quant k x p ih => simp [signed, names, freeNames, boundNames, ih]

theorem isBoolean_signed {f : Formula} (h : f.isBoolean = true) (b : Bool) :
    (f.signed b).isBoolean = true := by
  induction f generalizing b with
  | atom x => cases b <;> rfl
  | unary op p ih =>
    simp only [isBoolean, Bool.and_eq_true, beq_iff_eq] at h
    obtain ⟨rfl, hp⟩ := h
    exact ih hp (!b)
  | binary op p q ihp ihq =>
    simp only [isBoolean, Bool.and_eq_true] at h
    obtain ⟨hop, hp, hq⟩ := h
    cases op <;> cases b <;> simp_all [signed, isBoolean, BinaryOp.dual]
  | quant k x p ih => exact ih h b

/-- **Negation normal form keeps the value, and the form of the negation denies it.** -/
theorem eval_signed {f : Formula} (h : f.isBoolean = true) (b : Bool) (ρ : String → Bool) :
    (f.signed b).eval ρ = (f.eval ρ == b) := by
  induction f generalizing b ρ with
  | atom x => cases b <;> simp [signed, eval]
  | unary op p ih =>
    simp only [isBoolean, Bool.and_eq_true, beq_iff_eq] at h
    obtain ⟨rfl, hp⟩ := h
    rw [signed, ih hp, eval_not]
    cases p.eval ρ <;> cases b <;> rfl
  | binary op p q ihp ihq =>
    simp only [isBoolean, Bool.and_eq_true, Bool.or_eq_true, beq_iff_eq] at h
    obtain ⟨(rfl | rfl) | rfl, hp, hq⟩ := h
    all_goals
      cases b <;>
        simp only [signed, BinaryOp.dual, if_true, Bool.false_eq_true, if_false, eval, ihp hp,
          ihq hq] <;>
        cases p.eval ρ <;> cases q.eval ρ <;> rfl
  | quant k x p ih =>
    rw [signed, eval_quant, eval_quant, ih h, ih h]
    cases b <;> cases k <;> cases p.eval (Function.update ρ x false) <;>
      cases p.eval (Function.update ρ x true) <;> rfl

/-! ## 3. Renaming a bound name -/

/-- The same free names and the same value under every valuation. -/
structure AgreesWith (f g : Formula) : Prop where
  free : ∀ x, x ∈ f.freeNames ↔ x ∈ g.freeNames
  value : ∀ ρ, f.eval ρ = g.eval ρ

namespace AgreesWith

variable {f f' g g' h : Formula}

theorem refl (f : Formula) : f.AgreesWith f := ⟨fun _ => Iff.rfl, fun _ => rfl⟩

theorem trans (hfg : f.AgreesWith g) (hgh : g.AgreesWith h) : f.AgreesWith h :=
  ⟨fun x => (hfg.free x).trans (hgh.free x), fun ρ => (hfg.value ρ).trans (hgh.value ρ)⟩

theorem quant (hfg : f.AgreesWith g) (k : Quantifier) (x : String) :
    (quant k x f).AgreesWith (.quant k x g) where
  free y := by rw [freeNames, freeNames, List.mem_filter, List.mem_filter, hfg.free]
  value ρ := by rw [eval_quant, eval_quant, hfg.value, hfg.value]

theorem binary (op : BinaryOp) (hf : f.AgreesWith f') (hg : g.AgreesWith g') :
    (binary op f g).AgreesWith (.binary op f' g') where
  free y := by rw [freeNames, freeNames, List.mem_append, List.mem_append, hf.free, hg.free]
  value ρ := by cases op <;> simp only [eval, hf.value, hg.value]

end AgreesWith

/-- A bound name may be replaced by one that does not occur. -/
theorem agreesWith_rename {p : Formula} {x x' : String} (hx : x ≠ trueName) (hx' : x' ≠ trueName)
    (fresh : x' ∉ p.names) (k : Quantifier) :
    (quant k x' (p.rename x x')).AgreesWith (.quant k x p) := by
  refine ⟨fun y => ?_, fun ρ => ?_⟩
  · rw [freeNames, freeNames, freeNames_rename fresh, List.mem_filter, List.mem_filter,
      bne_iff_ne, bne_iff_ne, List.mem_map]
    constructor
    · intro h
      obtain ⟨⟨z, hz, rfl⟩, hne⟩ := h
      unfold replaced at hne ⊢
      split at hne
      · exact absurd rfl hne
      · next h => exact if_neg h ▸ ⟨hz, h⟩
    · intro h
      obtain ⟨hy, hne⟩ := h
      exact ⟨⟨y, hy, if_neg hne⟩, fun e => fresh (e ▸ mem_names_of_mem_freeNames hy)⟩
  · have step : ∀ v, (p.rename x x').eval (Function.update ρ x' v) =
        p.eval (Function.update ρ x v) := by
      intro v
      rw [eval_rename fresh hx hx', Function.update_self]
      -- the new name is not free in the formula, so its value does not matter there
      refine eval_congr fun y hy _ => ?_
      have hne : y ≠ x' := fun e => fresh (e ▸ mem_names_of_mem_freeNames hy)
      by_cases e : y = x
      · simp [e]
      · simp [e, hne]
    rw [eval_quant, eval_quant, step, step]

/-! ## 4. Prenex form -/

/-- Quantifiers over a propositional matrix, none of which binds the constant, with names that were
    drawn before a number. -/
structure PrenexBelow (n : Nat) (f : Formula) : Prop where
  matrix : f.matrix.isPropositional = true
  plain : trueName ∉ f.boundNames
  older : f.OlderThan n

theorem PrenexBelow.mono {m n : Nat} {f : Formula} (h : f.PrenexBelow m) (hmn : m ≤ n) :
    f.PrenexBelow n := ⟨h.matrix, h.plain, h.older.mono hmn⟩

theorem PrenexBelow.body {n : Nat} {k : Quantifier} {x : String} {p : Formula}
    (h : (quant k x p).PrenexBelow n) : p.PrenexBelow n where
  matrix := h.matrix
  plain := fun hx => h.plain (List.mem_cons_of_mem _ hx)
  older := fun y hy => h.older y (List.mem_cons_of_mem _ hy)

theorem PrenexBelow.quant {n : Nat} {x : String} {p : Formula} (h : p.PrenexBelow n)
    (hx : x ≠ trueName) (older : Older n x) (k : Quantifier) : (quant k x p).PrenexBelow n where
  matrix := h.matrix
  plain := fun hm => (List.mem_cons.1 hm).elim (fun e => hx e.symm) h.plain
  older := fun y hy => (List.mem_cons.1 hy).elim (fun e => e ▸ older) (h.older y)

theorem matrix_rename (f : Formula) (x x' : String) :
    (f.rename x x').matrix = f.matrix.rename x x' := by
  induction f with
  | quant k y p ih => exact ih
  | _ => rfl

theorem isPropositional_rename (f : Formula) (x x' : String) :
    (f.rename x x').isPropositional = f.isPropositional := by
  induction f with
  | atom y => rfl
  | unary op p ih => rw [rename, isPropositional, isPropositional, ih]
  | binary op p q ihp ihq => rw [rename, isPropositional, isPropositional, ihp, ihq]
  | quant k y p ih => rfl

theorem boundNames_rename (f : Formula) (x x' : String) :
    (f.rename x x').boundNames = f.boundNames.map fun y => if y = x then x' else y := by
  induction f with
  | atom y => rfl
  | unary op p ih => exact ih
  | binary op p q ihp ihq => simp [rename, boundNames, ihp, ihq]
  | quant k y p ih => simp [rename, boundNames, ih]

/-- Preparing a quantifier to move over a formula: its name is not mentioned there, and nothing else
    has changed. -/
theorem renameApart_spec {x : String} {p g : Formula} {t : Tickets} {k : Quantifier}
    (hp : (quant k x p).PrenexBelow t.next) (hg : g.OlderThan t.next) :
    (renameApart x p g t).1 ∉ g.names ∧
      (quant k (renameApart x p g t).1 (renameApart x p g t).2.1).PrenexBelow
        (renameApart x p g t).2.2.next ∧
      (quant k (renameApart x p g t).1 (renameApart x p g t).2.1).AgreesWith (.quant k x p) := by
  have hx : x ≠ trueName := fun e => hp.plain (e ▸ List.mem_cons_self)
  unfold renameApart
  split
  · have hx' := name_ne_true x t.next
    refine ⟨hg.name_not_mem x, ?_, agreesWith_rename hx hx' (hp.body.older.name_not_mem x) k⟩
    refine PrenexBelow.quant ⟨?_, fun h => ?_, fun y hy => ?_⟩ hx' (older_name x t.next) k
    · rw [matrix_rename, isPropositional_rename]
      exact hp.matrix
    · rw [Tickets.freshName, boundNames_rename] at h
      obtain ⟨y, hy, e⟩ := List.mem_map.1 h
      split at e
      · exact hx' e
      · exact hp.body.plain (e ▸ hy)
    · rw [Tickets.freshName, names_rename] at hy
      obtain ⟨z, hz, rfl⟩ := List.mem_map.1 hy
      split
      · exact older_name x t.next
      · exact (hp.body.older z hz).mono (Nat.le_succ _)
  · next h =>
    exact ⟨fun hm => h (mentions_iff.2 hm), hp, .refl _⟩

/-- A quantifier moves over a formula that does not mention its name. -/
theorem agreesWith_pull_left {op : BinaryOp} (hop : op = .and ∨ op = .or) {k : Quantifier}
    {x : String} {p g : Formula} (hx : x ∉ g.names) :
    (quant k x (binary op p g)).AgreesWith (.binary op (.quant k x p) g) := by
  have free : ∀ y ∈ g.freeNames, y ≠ x := fun y hy e => hx (e ▸ mem_names_of_mem_freeNames hy)
  refine ⟨fun y => ?_, fun ρ => ?_⟩
  · simp only [freeNames, List.mem_filter, List.mem_append, bne_iff_ne]
    have := free y
    tauto
  · have same : ∀ v, g.eval (Function.update ρ x v) = g.eval ρ := fun v =>
      eval_congr fun y hy _ => Function.update_of_ne (free y hy) _ _
    rcases hop with rfl | rfl <;>
      simp only [eval_quant, eval_and, eval_or, same] <;>
      cases k <;> simp only [Quantifier.join] <;>
      cases p.eval (Function.update ρ x false) <;> cases p.eval (Function.update ρ x true) <;>
      cases g.eval ρ <;> rfl

theorem agreesWith_pull_right {op : BinaryOp} (hop : op = .and ∨ op = .or) {k : Quantifier}
    {x : String} {f q : Formula} (hx : x ∉ f.names) :
    (quant k x (binary op f q)).AgreesWith (.binary op f (.quant k x q)) := by
  have free : ∀ y ∈ f.freeNames, y ≠ x := fun y hy e => hx (e ▸ mem_names_of_mem_freeNames hy)
  refine ⟨fun y => ?_, fun ρ => ?_⟩
  · simp only [freeNames, List.mem_filter, List.mem_append, bne_iff_ne]
    have := free y
    tauto
  · have same : ∀ v, f.eval (Function.update ρ x v) = f.eval ρ := fun v =>
      eval_congr fun y hy _ => Function.update_of_ne (free y hy) _ _
    rcases hop with rfl | rfl <;>
      simp only [eval_quant, eval_and, eval_or, same] <;>
      cases k <;> simp only [Quantifier.join] <;>
      cases q.eval (Function.update ρ x false) <;> cases q.eval (Function.update ρ x true) <;>
      cases f.eval ρ <;> rfl

/-- Two quantifiers of a kind that distributes are one. -/
theorem agreesWith_merge {op : BinaryOp} {k : Quantifier} (h : k.distributesOver op = true)
    (x : String) (p q : Formula) :
    (quant k x (binary op p q)).AgreesWith (.binary op (.quant k x p) (.quant k x q)) := by
  refine ⟨fun y => ?_, fun ρ => ?_⟩
  · simp only [freeNames, List.mem_filter, List.mem_append, or_and_right]
  · cases k <;> cases op <;> simp only [Quantifier.distributesOver, Bool.false_eq_true] at h <;>
      simp only [eval_quant, eval_and, eval_or, Quantifier.join] <;>
      cases p.eval (Function.update ρ x false) <;> cases p.eval (Function.update ρ x true) <;>
      cases q.eval (Function.update ρ x false) <;> cases q.eval (Function.update ρ x true) <;> rfl

/-- What moving quantifiers to the front comes to. -/
structure Pulled (t : Tickets) (f : Formula) (r : Formula × Tickets) : Prop where
  le : t.next ≤ r.2.next
  below : r.1.PrenexBelow r.2.next
  agrees : r.1.AgreesWith f

/-- A quantifier put back in front of what was pulled out of its body. -/
theorem Pulled.bind {t : Tickets} {k : Quantifier} {x : String} {f p r : Formula} {t' : Tickets}
    (h : Pulled t f (r, t')) (hx : (quant k x p).PrenexBelow t.next) :
    (quant k x r).PrenexBelow t'.next ∧ (quant k x r).AgreesWith (.quant k x f) := by
  have hne : x ≠ trueName := fun e => hx.plain (e ▸ List.mem_cons_self)
  exact ⟨h.below.quant hne ((hx.older x List.mem_cons_self).mono h.le) k, h.agrees.quant k x⟩

/-- The quantifier on the left moves to the front. -/
theorem Pulled.left {op : BinaryOp} (hop : op = .and ∨ op = .or) {k : Quantifier} {x : String}
    {p g r : Formula} {t t' : Tickets} (hp : (quant k x p).PrenexBelow t.next)
    (hg : g.PrenexBelow t.next)
    (h : (renameApart x p g t).2.1.PrenexBelow (renameApart x p g t).2.2.next →
      g.PrenexBelow (renameApart x p g t).2.2.next →
        Pulled (renameApart x p g t).2.2 (.binary op (renameApart x p g t).2.1 g) (r, t')) :
    Pulled t (.binary op (.quant k x p) g) (.quant k (renameApart x p g t).1 r, t') := by
  obtain ⟨apart, below, agrees⟩ := renameApart_spec hp hg.older
  have le := le_renameApart x p g t
  have h := h below.body (hg.mono le)
  refine ⟨Nat.le_trans le h.le, (h.bind below).1, (h.bind below).2.trans ?_⟩
  exact (agreesWith_pull_left hop apart).trans (agrees.binary op (.refl g))

/-- The quantifier on the right moves to the front. -/
theorem Pulled.right {op : BinaryOp} (hop : op = .and ∨ op = .or) {k : Quantifier} {x : String}
    {f q r : Formula} {t t' : Tickets} (hf : f.PrenexBelow t.next)
    (hq : (quant k x q).PrenexBelow t.next)
    (h : f.PrenexBelow (renameApart x q f t).2.2.next →
      (renameApart x q f t).2.1.PrenexBelow (renameApart x q f t).2.2.next →
        Pulled (renameApart x q f t).2.2 (.binary op f (renameApart x q f t).2.1) (r, t')) :
    Pulled t (.binary op f (.quant k x q)) (.quant k (renameApart x q f t).1 r, t') := by
  obtain ⟨apart, below, agrees⟩ := renameApart_spec hq hf.older
  have le := le_renameApart x q f t
  have h := h (hf.mono le) below.body
  refine ⟨Nat.le_trans le h.le, (h.bind below).1, (h.bind below).2.trans ?_⟩
  exact (agreesWith_pull_right hop apart).trans ((AgreesWith.refl f).binary op agrees)

/-- Without leading quantifiers a prenex formula is propositional. -/
theorem PrenexBelow.isPropositional {n : Nat} {f : Formula} (h : f.PrenexBelow n)
    (hf : ∀ k x p, f = .quant k x p → False) : f.isPropositional = true := by
  cases f with
  | quant k x p => exact absurd rfl (hf k x p)
  | _ => exact h.matrix

theorem pullQuantifiers_pulled {op : BinaryOp} (hop : op = .and ∨ op = .or) {f g : Formula}
    {t : Tickets} (hf : f.PrenexBelow t.next) (hg : g.PrenexBelow t.next) :
    Pulled t (.binary op f g) (pullQuantifiers op f g t) := by
  fun_induction pullQuantifiers op f g t with
  | case1 t k x p k' y q same r t' e ih =>
    obtain ⟨rfl, rfl, distributes⟩ := same
    have h := e ▸ ih hf.body hg.body
    exact ⟨h.le, (h.bind hf).1, (h.bind hf).2.trans (agreesWith_merge distributes x p q)⟩
  | case2 t k x p k' y q _ renamed r t' e ih => exact .left hop hf hg fun h h' => e ▸ ih h h'
  | case3 t k x p g _ renamed r t' e ih => exact .left hop hf hg fun h h' => e ▸ ih h h'
  | case4 t f k y q _ renamed r t' e ih => exact .right hop hf hg fun h h' => e ▸ ih h h'
  | case5 t f g _ hfq hgq =>
    refine ⟨Nat.le_refl _, ⟨?_, fun h => ?_, fun x hx => ?_⟩, .refl _⟩
    · have hf := hf.isPropositional hfq
      have hg := hg.isPropositional hgq
      rcases hop with rfl | rfl <;> simp [matrix, isPropositional, hf, hg]
    · exact (List.mem_append.1 h).elim hf.plain hg.plain
    · exact (List.mem_append.1 hx).elim (hf.older x) (hg.older x)

/-- The sides of a connective in negation normal form. -/
theorem parts_of_isNnf {op : BinaryOp} {p q : Formula} (hb : (binary op p q).isBoolean = true)
    (hn : (binary op p q).isNnf = true) : (op = .and ∨ op = .or) ∧
      (p.isBoolean = true ∧ p.isNnf = true) ∧ q.isBoolean = true ∧ q.isNnf = true := by
  simp only [isBoolean, Bool.and_eq_true, Bool.or_eq_true, beq_iff_eq] at hb
  obtain ⟨hop, hp, hq⟩ := hb
  obtain ⟨himp, np, nq⟩ := isNnf_binary_iff.1 hn
  exact ⟨hop.resolve_right himp, ⟨hp, np⟩, hq, nq⟩

/-- **Prenex form keeps the truth**: a boolean formula with negations at atoms only, no binder of the
    constant and no name that could be drawn comes to a prenex form with its free names and values. -/
theorem prenex_agrees {f : Formula} {t : Tickets} (hb : f.isBoolean = true) (hn : f.isNnf = true)
    (plain : trueName ∉ f.boundNames) (older : f.OlderThan t.next) :
    ∃ g t', f.prenex t = (.ok g, t') ∧ Pulled t f (g, t') := by
  induction f generalizing t with
  | atom x =>
    exact ⟨.atom x, t, rfl, Nat.le_refl _, ⟨rfl, plain, older⟩, .refl _⟩
  | unary op p =>
    simp only [isBoolean, Bool.and_eq_true, beq_iff_eq] at hb
    obtain ⟨rfl, -⟩ := hb
    have atom : p.isAtom = true := hn
    refine ⟨.not p, t, by rw [prenex, if_pos rfl, if_pos atom], Nat.le_refl _, ⟨?_, plain, older⟩,
      .refl _⟩
    cases p <;> first | rfl | cases atom
  | binary op p q ihp ihq =>
    obtain ⟨hop, ⟨hbp, hnp⟩, hbq, hnq⟩ := parts_of_isNnf hb hn
    obtain ⟨p', t', hp, h⟩ := ihp hbp hnp (fun hx => plain (List.mem_append_left _ hx))
      fun x hx => older x (List.mem_append_left _ hx)
    obtain ⟨q', t'', hq, h'⟩ := ihq (t := t') hbq hnq
      (fun hx => plain (List.mem_append_right _ hx))
      fun x hx => (older x (List.mem_append_right _ hx)).mono h.le
    have pulled := pullQuantifiers_pulled hop (h.below.mono h'.le) h'.below
    refine ⟨_, _, by simp only [prenex, if_pos hop, hp, hq], ?_, pulled.below, ?_⟩
    · exact Nat.le_trans h.le (Nat.le_trans h'.le pulled.le)
    · exact pulled.agrees.trans (h.agrees.binary op h'.agrees)
  | quant k x p ih =>
    obtain ⟨r, t', hr, h⟩ := ih (t := t) hb hn (fun hx => plain (List.mem_cons_of_mem _ hx))
      fun y hy => older y (List.mem_cons_of_mem _ hy)
    have hx : x ≠ trueName := fun e => plain (e ▸ List.mem_cons_self)
    refine ⟨.quant k x r, t', by rw [prenex, hr], h.le, ?_, h.agrees.quant k x⟩
    exact h.below.quant hx ((older x List.mem_cons_self).mono h.le) k

end Formula

end CtlTableau
