import CtlTableau.Proofs.NormalForms

/-!
# The matrix of a prenex form

Prenex form moves quantifiers and renames what they bind, and leaves everything else in its place: a
formula `StripsTo` the matrix of its prenex form, which is the formula without its quantifiers, each
bound name replaced by one that the prefix binds. Moving the quantifiers of two formulas to the
front maps the names of either matrix (`Carries`), and what is stripped goes along
(`StripsTo.carry`).

A formula that has no prenex form is refused at the first node, read from the root and from the
left, that has no place in one (`prenex_eq_error_iff`).

Main statement: `prenex_settles`.
-/

namespace CtlTableau.Formula

open Tickets

/-! ## 1. Stripping quantifiers -/

/-- The matrix is the formula without its quantifiers; `r` gives the names that stand for those of
    the formula, where each quantifier brings in some name of `B` for its own. -/
inductive StripsTo (B : List String) : (String → String) → Formula → Formula → Prop where
  | atom (r : String → String) (x : String) : StripsTo B r (.atom x) (.atom (r x))
  | unary {r : String → String} {p m : Formula} (op : UnaryOp) (hp : StripsTo B r p m) :
      StripsTo B r (.unary op p) (.unary op m)
  | binary {r : String → String} {p q m n : Formula} (op : BinaryOp) (hp : StripsTo B r p m)
      (hq : StripsTo B r q n) : StripsTo B r (.binary op p q) (.binary op m n)
  | quant {r : String → String} {x x' : String} {p m : Formula} (k : Quantifier) (hx' : x' ∈ B)
      (hp : StripsTo B (Function.update r x x') p m) : StripsTo B r (.quant k x p) m

/-- The number of nodes that are no quantifiers. -/
def bareSize : Formula → Nat
  | .atom _ => 1
  | .unary _ p => 1 + p.bareSize
  | .binary _ p q => 1 + p.bareSize + q.bareSize
  | .quant _ _ p => p.bareSize

namespace StripsTo

variable {B B' : List String} {r r' ρ : String → String} {f m : Formula}

/-- Nothing but the quantifiers is lost. -/
theorem size_eq (h : StripsTo B r f m) : m.size = f.bareSize := by
  induction h with
  | atom r x => rfl
  | unary op _ ih => rw [size, bareSize, ih]
  | binary op _ _ ihp ihq => rw [size, bareSize, ihp, ihq]
  | quant k _ _ ih => exact ih

/-- What stands for a name matters where the name is free. -/
theorem congr (h : StripsTo B r f m) (hr : ∀ x ∈ f.freeNames, r x = r' x) : StripsTo B r' f m := by
  induction h generalizing r' with
  | atom r x => exact hr x (List.mem_singleton_self x) ▸ .atom r' x
  | unary op _ ih => exact .unary op (ih hr)
  | binary op _ _ ihp ihq =>
    exact .binary op (ihp fun x hx => hr x (List.mem_append_left _ hx))
      (ihq fun x hx => hr x (List.mem_append_right _ hx))
  | @quant r x x' p m k hx' _ ih =>
    refine .quant k hx' (ih fun y hy => ?_)
    by_cases e : y = x
    · rw [e, Function.update_self, Function.update_self]
    · rw [Function.update_of_ne e, Function.update_of_ne e]
      exact hr y (List.mem_filter.2 ⟨hy, bne_iff_ne.2 e⟩)

/-- More names for the quantifiers. -/
theorem wider (h : StripsTo B r f m) (hB : ∀ x ∈ B, x ∈ B') : StripsTo B' r f m := by
  induction h with
  | atom r x => exact .atom r x
  | unary op _ ih => exact .unary op ih
  | binary op _ _ ihp ihq => exact .binary op ihp ihq
  | quant k hx' _ ih => exact .quant k (hB _ hx') ih

/-- Renaming the matrix. -/
theorem mapNames (h : StripsTo B r f m) (lands : ∀ x ∈ B, ρ x ∈ B') :
    StripsTo B' (ρ ∘ r) f (m.mapNames ρ) := by
  induction h with
  | atom r x => exact .atom (ρ ∘ r) x
  | unary op _ ih => exact .unary op ih
  | binary op _ _ ihp ihq => exact .binary op ihp ihq
  | @quant r x x' p m k hx' _ ih =>
    rw [Function.comp_update] at ih
    exact .quant k (lands x' hx') ih

end StripsTo

/-! ## 2. Names that move along -/

theorem boundNames_of_isPropositional {f : Formula} (h : f.isPropositional = true) :
    f.boundNames = [] := by
  induction f with
  | atom x => rfl
  | unary op p ih => exact ih (Bool.and_eq_true_iff.1 h).2
  | binary op p q ihp ihq =>
    obtain ⟨-, hpq⟩ := Bool.and_eq_true_iff.1 h
    rw [boundNames, ihp (Bool.and_eq_true_iff.1 hpq).1, ihq (Bool.and_eq_true_iff.1 hpq).2]
    rfl
  | quant k x p => cases h

/-- A prenex formula binds none of its free names. -/
theorem not_mem_boundNames {f : Formula} (h : f.matrix.isPropositional = true) {x : String}
    (hx : x ∈ f.freeNames) : x ∉ f.boundNames := by
  induction f with
  | quant k y p ih =>
    obtain ⟨hp, hne⟩ := List.mem_filter.1 hx
    exact fun hm => (List.mem_cons.1 hm).elim (bne_iff_ne.1 hne) (ih h hp)
  | _ =>
    refine fun hm => List.not_mem_nil (boundNames_of_isPropositional ?_ ▸ hm)
    exact h

/-- What becomes of the names of a formula whose quantifiers move to the front: those that it binds
    become names of the prefix, others stay unless they are drawn on the way. -/
structure Carries (t : Tickets) (f : Formula) (B : List String) (ρ : String → String) : Prop where
  fixes : ∀ x, x ∉ f.boundNames → Older t.next x → ρ x = x
  lands : ∀ x ∈ f.boundNames, ρ x ∈ B

namespace Carries

variable {t t' : Tickets} {f g p : Formula} {k : Quantifier} {x y : String} {B : List String}
  {ρ : String → String}

/-- Another name in front of the prefix, and perhaps drawn on the way. -/
theorem beside (h : Carries t' f B ρ) (le : t.next ≤ t'.next) : Carries t f (y :: B) ρ where
  fixes x hx older := h.fixes x hx (older.mono le)
  lands x hx := List.mem_cons_of_mem y (h.lands x hx)

/-- The formula's own quantifier in front of the prefix. -/
theorem under (h : Carries t p B ρ) (older : Older t.next x) :
    Carries t (quant k x p) (x :: B) ρ where
  fixes y hy older := h.fixes y (fun hm => hy (List.mem_cons_of_mem x hm)) older
  lands y hy := by
    by_cases hm : y ∈ p.boundNames
    · exact List.mem_cons_of_mem x (h.lands y hm)
    · obtain rfl := (List.mem_cons.1 hy).resolve_right hm
      rw [h.fixes y hm older]
      exact List.mem_cons_self

/-- The formula's own quantifier in front of the prefix, under a name drawn for it. -/
theorem rename (h : Carries ⟨t.next + 1⟩ (p.rename x (name x t.next)) B ρ) :
    Carries t (quant k x p) (name x t.next :: B)
      (ρ ∘ replaced x (name x t.next)) where
  fixes y hy older := by
    have hne : y ≠ x := fun e => hy (e ▸ List.mem_cons_self)
    have hne' : y ≠ name x t.next := fun e => Nat.lt_irrefl _ (older x t.next e)
    rw [Function.comp, replaced, if_neg hne]
    refine h.fixes y (fun hm => ?_) (older.mono (Nat.le_succ _))
    rw [boundNames_rename] at hm
    obtain ⟨z, hz, e⟩ := List.mem_map.1 hm
    split at e
    · exact hne' e.symm
    · exact hy (e ▸ List.mem_cons_of_mem x hz)
  lands y hy := by
    rw [Function.comp, replaced]
    split
    · next e =>
      by_cases hm : name x t.next ∈ (p.rename x (name x t.next)).boundNames
      · exact List.mem_cons_of_mem _ (h.lands _ hm)
      · rw [h.fixes _ hm (older_name x t.next)]
        exact List.mem_cons_self
    · next hne =>
      refine List.mem_cons_of_mem _ (h.lands y ?_)
      rw [boundNames_rename]
      exact List.mem_map.2 ⟨y, (List.mem_cons.1 hy).resolve_left hne, if_neg hne⟩

/-- The formula's own quantifier in front of the prefix, prepared to move over another formula. -/
theorem apart (older : Older t.next x)
    (h : Carries (renameApart x p g t).2.2 (renameApart x p g t).2.1 B ρ) :
    ∃ ρ', Carries t (quant k x p) ((renameApart x p g t).1 :: B) ρ' ∧
      (renameApart x p g t).2.1.matrix.mapNames ρ = p.matrix.mapNames ρ' := by
  unfold renameApart at h ⊢
  split at h
  · next e =>
    rw [if_pos e]
    refine ⟨_, h.rename, ?_⟩
    rw [Tickets.freshName, matrix_rename, rename_eq_mapNames, mapNames_mapNames]
  · next e =>
    rw [if_neg e]
    exact ⟨ρ, h.under older, rfl⟩

end Carries

/-- Moving the quantifiers of two prenex formulas to the front joins their matrices, in other
    names. -/
theorem matrix_pullQuantifiers (op : BinaryOp) {f g : Formula} {t : Tickets}
    (hf : f.PrenexBelow t.next)
    (hg : g.PrenexBelow t.next) :
    ∃ ρ₁ ρ₂, Carries t f (pullQuantifiers op f g t).1.boundNames ρ₁ ∧
      Carries t g (pullQuantifiers op f g t).1.boundNames ρ₂ ∧
      (pullQuantifiers op f g t).1.matrix =
        .binary op (f.matrix.mapNames ρ₁) (g.matrix.mapNames ρ₂) := by
  fun_induction pullQuantifiers op f g t with
  | case1 t k x p k' y q same r t' e ih =>
    obtain ⟨rfl, rfl, -⟩ := same
    rw [e] at ih
    obtain ⟨ρ₁, ρ₂, h₁, h₂, matrix⟩ := ih hf.body hg.body
    have older := hf.older x List.mem_cons_self
    exact ⟨ρ₁, ρ₂, h₁.under older, h₂.under older, matrix⟩
  | case2 t k x p k' y q _ renamed r t' e ih =>
    rw [e] at ih
    obtain ⟨-, below, -⟩ := renameApart_spec hf hg.older
    have le := le_renameApart x p (quant k' y q) t
    obtain ⟨ρ₁, ρ₂, h₁, h₂, matrix⟩ := ih below.body (hg.mono le)
    obtain ⟨ρ₁', h₁', same⟩ := h₁.apart (hf.older x List.mem_cons_self)
    exact ⟨ρ₁', ρ₂, h₁', h₂.beside le, matrix.trans (by rw [same]; rfl)⟩
  | case3 t k x p g _ renamed r t' e ih =>
    rw [e] at ih
    obtain ⟨-, below, -⟩ := renameApart_spec hf hg.older
    have le := le_renameApart x p g t
    obtain ⟨ρ₁, ρ₂, h₁, h₂, matrix⟩ := ih below.body (hg.mono le)
    obtain ⟨ρ₁', h₁', same⟩ := h₁.apart (hf.older x List.mem_cons_self)
    exact ⟨ρ₁', ρ₂, h₁', h₂.beside le, matrix.trans (by rw [same]; rfl)⟩
  | case4 t f k y q _ renamed r t' e ih =>
    rw [e] at ih
    obtain ⟨-, below, -⟩ := renameApart_spec hg hf.older
    have le := le_renameApart y q f t
    obtain ⟨ρ₁, ρ₂, h₁, h₂, matrix⟩ := ih (hf.mono le) below.body
    obtain ⟨ρ₂', h₂', same⟩ := h₂.apart (hg.older y List.mem_cons_self)
    exact ⟨ρ₁, ρ₂', h₁.beside le, h₂', matrix.trans (by rw [same]; rfl)⟩
  | case5 t f g _ hfq hgq =>
    have bare : ∀ {f : Formula}, (∀ k x p, f = .quant k x p → False) → f.matrix = f := by
      intro f hf
      cases f with
      | quant k x p => exact absurd rfl (hf k x p)
      | _ => rfl
    refine ⟨id, id, ⟨fun _ _ _ => rfl, fun x hx => List.mem_append_left _ hx⟩,
      ⟨fun _ _ _ => rfl, fun x hx => List.mem_append_right _ hx⟩, ?_⟩
    rw [mapNames_id, mapNames_id, bare hfq, bare hgq]
    rfl

/-- What strips to the matrix of a prenex form with its free names goes along when the quantifiers
    move. -/
theorem StripsTo.carry {t : Tickets} {f p : Formula} {B : List String} {ρ : String → String}
    (h : StripsTo f.boundNames id p f.matrix) (hf : f.PrenexBelow t.next) (agrees : f.AgreesWith p)
    (carries : Carries t f B ρ) : StripsTo B id p (f.matrix.mapNames ρ) := by
  refine (h.mapNames carries.lands).congr fun x hx => ?_
  have hx := (agrees.free x).2 hx
  exact carries.fixes x (not_mem_boundNames hf.matrix hx)
    (hf.older x (mem_names_of_mem_freeNames hx))

/-- **The matrix is the formula without its quantifiers.** -/
theorem stripsTo_prenex {f g : Formula} {t t' : Tickets} (hb : f.isBoolean = true)
    (hn : f.isNnf = true) (plain : trueName ∉ f.boundNames) (older : f.OlderThan t.next)
    (hg : f.prenex t = (.ok g, t')) : StripsTo g.boundNames id f g.matrix := by
  induction f generalizing t t' g with
  | atom x =>
    cases hg
    exact .atom id x
  | unary op p =>
    simp only [isBoolean, Bool.and_eq_true, beq_iff_eq] at hb
    obtain ⟨rfl, -⟩ := hb
    have atom : p.isAtom = true := hn
    rw [prenex, if_pos rfl, if_pos atom] at hg
    cases hg
    cases p with
    | atom x => exact .unary .not (.atom id x)
    | _ => cases atom
  | binary op p q ihp ihq =>
    obtain ⟨hop, ⟨hbp, hnp⟩, hbq, hnq⟩ := parts_of_isNnf hb hn
    have plainp : trueName ∉ p.boundNames := fun hx => plain (List.mem_append_left _ hx)
    have plainq : trueName ∉ q.boundNames := fun hx => plain (List.mem_append_right _ hx)
    have olderp : p.OlderThan t.next := fun x hx => older x (List.mem_append_left _ hx)
    have olderq : q.OlderThan t.next := fun x hx => older x (List.mem_append_right _ hx)
    obtain ⟨p', t₁, hp, h⟩ := prenex_agrees hbp hnp plainp olderp
    have olderq := olderq.mono h.le
    obtain ⟨q', t₂, hq, h'⟩ := prenex_agrees hbq hnq plainq olderq
    rw [prenex, if_pos hop, hp] at hg
    simp only [hq] at hg
    cases hg
    have below := h.below.mono h'.le
    obtain ⟨ρ₁, ρ₂, h₁, h₂, matrix⟩ := matrix_pullQuantifiers op below h'.below
    rw [matrix]
    exact .binary op ((ihp hbp hnp plainp olderp hp).carry below h.agrees h₁)
      ((ihq hbq hnq plainq olderq hq).carry h'.below h'.agrees h₂)
  | quant k x p ih =>
    have plainp : trueName ∉ p.boundNames := fun hx => plain (List.mem_cons_of_mem _ hx)
    have olderp : p.OlderThan t.next := fun y hy => older y (List.mem_cons_of_mem _ hy)
    obtain ⟨r, t₁, hr, -⟩ := prenex_agrees (f := p) hb hn plainp olderp
    rw [prenex, hr] at hg
    cases hg
    have stripped := ih hb hn plainp olderp hr
    refine .quant k List.mem_cons_self ?_
    rw [show Function.update id x x = id from Function.update_eq_self x id]
    exact stripped.wider fun y hy => List.mem_cons_of_mem x hy

/-! ## 3. Refusals -/

/-- The nodes of a formula: each before those below it, and those on the left first. -/
def preorder : Formula → List Formula
  | .atom x => [.atom x]
  | .unary op p => .unary op p :: p.preorder
  | .binary op p q => .binary op p q :: (p.preorder ++ q.preorder)
  | .quant k x p => .quant k x p :: p.preorder

theorem mem_preorder_self (f : Formula) : f ∈ f.preorder := by
  cases f <;> exact List.mem_cons_self

/-- What passes from a formula to its arguments holds of all its nodes. -/
theorem forall_mem_preorder {P : Formula → Prop} (unary : ∀ op p, P (.unary op p) → P p)
    (binary : ∀ op p q, P (.binary op p q) → P p ∧ P q)
    (quant : ∀ k x p, P (.quant k x p) → P p) {f : Formula} (hf : P f) :
    ∀ g ∈ f.preorder, P g := by
  induction f with
  | atom x => exact List.forall_mem_singleton.2 hf
  | unary op p ih => exact List.forall_mem_cons.2 ⟨hf, ih (unary op p hf)⟩
  | binary op p q ihp ihq =>
    obtain ⟨hp, hq⟩ := binary op p q hf
    exact List.forall_mem_cons.2 ⟨hf, List.forall_mem_append.2 ⟨ihp hp, ihq hq⟩⟩
  | quant k x p ih => exact List.forall_mem_cons.2 ⟨hf, ih (quant k x p hf)⟩

/-- Why a node has no place in a prenex form: it denies something that is no atom, or its operator
    is a temporal one or implication. -/
def refusal : Formula → Option Fault
  | .unary .not p => if p.isAtom then none else some (.notInNnf (.not p))
  | .unary op p => some (.unsupported .prenexForm (.unary op p))
  | .binary .and _ _ => none
  | .binary .or _ _ => none
  | .binary op p q => some (.unsupported .prenexForm (.binary op p q))
  | _ => none

theorem refusal_connective {op : BinaryOp} (hop : op = .and ∨ op = .or) (p q : Formula) :
    (binary op p q).refusal = none := by
  rcases hop with rfl | rfl <;> rfl

theorem refusal_other {op : BinaryOp} (hop : ¬ (op = .and ∨ op = .or)) (p q : Formula) :
    (binary op p q).refusal = some (.unsupported .prenexForm (.binary op p q)) := by
  cases op <;> first | rfl | exact absurd (by decide) hop

/-- If something is found at the root, this is found first. -/
theorem findSome?_preorder {α : Type} {find : Formula → Option α} {f : Formula} {a : α}
    (h : find f = some a) : f.preorder.findSome? find = some a := by
  cases f <;> rw [preorder, List.findSome?_cons, h]

theorem exists_refused {f : Formula} {e : Fault} (h : f.refusal = some e) :
    ¬ ∀ node ∈ f.preorder, node.refusal = none := by
  intro all
  rw [← List.findSome?_eq_none_iff, findSome?_preorder h] at all
  cases all

/-- No node is refused in boolean formulas with negations at atoms only, and in no others. -/
theorem refusal_eq_none_iff {f : Formula} : (∀ node ∈ f.preorder, node.refusal = none) ↔
    f.isBoolean = true ∧ f.isNnf = true := by
  induction f with
  | atom x => exact iff_of_true (List.forall_mem_singleton.2 rfl) ⟨rfl, rfl⟩
  | unary op p ih =>
    cases op with
    | not =>
      cases p with
      | atom x => exact iff_of_true (by simp [preorder, refusal, isAtom]) ⟨rfl, rfl⟩
      | _ => exact iff_of_false (exists_refused rfl) fun h => Bool.false_ne_true h.2
    | _ => exact iff_of_false (exists_refused rfl) fun h => Bool.false_ne_true h.1
  | binary op p q ihp ihq =>
    by_cases hop : op = .and ∨ op = .or
    · rw [preorder, List.forall_mem_cons, List.forall_mem_append, ihp, ihq,
        and_iff_right (refusal_connective hop p q)]
      rcases hop with rfl | rfl <;>
        simp only [isBoolean, isNnf, beq_self_eq_true, Bool.true_or, Bool.or_true, Bool.true_and,
          Bool.and_eq_true] <;>
        tauto
    · refine iff_of_false (exists_refused (refusal_other hop p q)) fun h => ?_
      exact hop (parts_of_isNnf h.1 h.2).1
  | quant k x p ih =>
    have accepted : (quant k x p).refusal = none := rfl
    rw [preorder, List.forall_mem_cons, ih, and_iff_right accepted]
    rfl

/-- If the root is refused, this makes the fault. -/
theorem prenex_of_refused {f : Formula} {e : Fault} (h : f.refusal = some e) (t : Tickets) :
    (f.prenex t).1 = .error e := by
  cases f with
  | atom x => cases h
  | unary op p =>
    cases op with
    | not => cases p <;> cases h <;> rfl
    | _ => cases h; rfl
  | binary op p q =>
    cases op with
    | and => cases h
    | or => cases h
    | _ => cases h; rfl
  | quant k x p => cases h

theorem prenex_eq_error_iff_of_refused {f : Formula} {e' : Fault} (h : f.refusal = some e')
    (t : Tickets) (e : Fault) :
    (f.prenex t).1 = .error e ↔ f.preorder.findSome? refusal = some e := by
  rw [findSome?_preorder h, prenex_of_refused h, Except.error.injEq, Option.some.injEq]

/-- **The first node that is refused makes the fault**, and there is no other fault. -/
theorem prenex_eq_error_iff {f : Formula} {t : Tickets} {e : Fault} :
    (f.prenex t).1 = .error e ↔ f.preorder.findSome? refusal = some e := by
  induction f generalizing t e with
  | atom x => exact iff_of_false (fun h => by cases h) fun h => by cases h
  | unary op p ih =>
    cases op with
    | not =>
      cases p with
      | atom x => exact iff_of_false (fun h => by cases h) fun h => by cases h
      | _ => exact prenex_eq_error_iff_of_refused rfl t e
    | _ => exact prenex_eq_error_iff_of_refused rfl t e
  | binary op p q ihp ihq =>
    by_cases hop : op = .and ∨ op = .or
    · rw [preorder, List.findSome?_cons, refusal_connective hop, List.findSome?_append, prenex,
        if_pos hop]
      cases hp : p.prenex t with
      | mk r t' =>
        have left := fun e' => ihp (t := t) (e := e')
        rw [hp] at left
        cases r with
        | error e' => rw [(left e').1 rfl, Except.error.injEq, Option.some_or, Option.some.injEq]
        | ok p' =>
          have accepted : p.preorder.findSome? refusal = none :=
            Option.eq_none_iff_forall_ne_some.2 fun e' h => by cases (left e').2 h
          rw [accepted, Option.none_or, ← ihq (t := t')]
          cases hq : q.prenex t' with
          | mk r t'' => cases r <;> simp [hq]
    · exact prenex_eq_error_iff_of_refused (refusal_other hop p q) t e
  | quant k x p ih =>
    have accepted : (quant k x p).refusal = none := rfl
    rw [preorder, List.findSome?_cons, accepted, ← ih (t := t), prenex]
    cases p.prenex t with
    | mk r t' => cases r <;> simp

/-! ## 4. Prenex form -/

/-- **What prenex form comes to.** A boolean formula with negations at atoms only, no binder of the
    constant and no name that could be drawn yet, gets a prefix over a propositional matrix, with
    the same free names and the same value under every valuation; the matrix is the formula without
    its quantifiers, up to the names that they bind. Any other formula is refused at its first node,
    read from the root and from the left, that is refused. -/
theorem prenex_settles (f : Formula) (t : Tickets) :
    (f.isBoolean = true → f.isNnf = true → trueName ∉ f.boundNames → f.OlderThan t.next →
      ∃ g, (f.prenex t).1 = .ok g ∧ g.matrix.isPropositional = true ∧
        (∀ x, x ∈ g.free ↔ x ∈ f.free) ∧ (∀ ρ, g.eval ρ = f.eval ρ) ∧
        StripsTo g.boundNames id f g.matrix ∧ g.matrix.size = f.bareSize) ∧
    (¬ (f.isBoolean = true ∧ f.isNnf = true) →
      ∃ before node after e, f.preorder = before ++ node :: after ∧
        (∀ m ∈ before, m.refusal = none) ∧ node.refusal = some e ∧ (f.prenex t).1 = .error e) := by
  refine ⟨fun hb hn plain older => ?_, fun shape => ?_⟩
  · obtain ⟨g, t', hg, pulled⟩ := prenex_agrees hb hn plain older
    have strips := stripsTo_prenex hb hn plain older hg
    refine ⟨g, by rw [hg], pulled.below.matrix, fun x => ?_, pulled.agrees.value, strips,
      strips.size_eq⟩
    rw [mem_free, mem_free]
    exact pulled.agrees.free x
  · cases h : f.preorder.findSome? refusal with
    | none => exact absurd (refusal_eq_none_iff.1 (List.findSome?_eq_none_iff.1 h)) shape
    | some e =>
      obtain ⟨before, node, after, split, refused, accepted⟩ := List.findSome?_eq_some_iff.1 h
      exact ⟨before, node, after, e, split, accepted, refused, prenex_eq_error_iff.2 h⟩

/-- "p, and some p is true while every p is false". -/
def shadowed : Formula :=
  .and (.atom "p") (.exist "p" (.and (.atom "p") (.all "p" (.not (.atom "p")))))

/-- The quantifiers of the example move over "p" under drawn names, and nothing else changes. A
    denied conjunction is refused before a "next" on its right. -/
theorem prenex_settles_shadowed :
    (shadowed.prenex .start).1 = .ok (.exist "p'2" (.all "p'1"
      (.and (.atom "p") (.and (.atom "p'2") (.not (.atom "p'1")))))) ∧
    (∀ ρ, (exist "p'2" (.all "p'1"
      (.and (.atom "p") (.and (.atom "p'2") (.not (.atom "p'1")))))).eval ρ = shadowed.eval ρ) ∧
    ((and (.not shadowed) (.ex (.atom "p"))).prenex .start).1 = .error (.notInNnf (.not shadowed)) ∧
    ∃ node ∈ (and (.not shadowed) (.ex (.atom "p"))).preorder,
      node.refusal = some (.notInNnf (.not shadowed)) := by
  have moved : (shadowed.prenex .start).1 = .ok (.exist "p'2" (.all "p'1"
      (.and (.atom "p") (.and (.atom "p'2") (.not (.atom "p'1")))))) := by decide +kernel
  have plain : ∀ x ∈ shadowed.names, '\'' ∉ x.toList := by decide
  obtain ⟨g, hg, -, -, value, -, -⟩ := (prenex_settles shadowed .start).1 (by decide) (by decide)
    (by decide) (olderThan_of_plain plain _)
  rw [moved] at hg
  cases hg
  obtain ⟨before, node, after, e, split, -, refusal, refused⟩ :=
    (prenex_settles (.and (.not shadowed) (.ex (.atom "p"))) .start).2 (by decide)
  have fault : ((and (.not shadowed) (.ex (.atom "p"))).prenex .start).1 =
      .error (.notInNnf (.not shadowed)) := rfl
  rw [fault] at refused
  cases refused
  exact ⟨moved, value, fault, node, split ▸ List.mem_append_right _ List.mem_cons_self, refusal⟩

end CtlTableau.Formula
