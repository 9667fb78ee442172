import CtlTableau.Proofs.Boolean
import CtlTableau.Proofs.Closure
import CtlTableau.Proofs.Variables
import Mathlib.Data.Fintype.BigOperators
import Mathlib.Data.Set.Basic

/-!
# Sets of states as formulas

A tableau state assigns a truth value to every member of the positive closure. A valuation of the
variables of a symbolic state reads as one (`read`), and every state can be written into a valuation
(`write`).

`Says own k f P` says that the formula `f` is true under the valuations with the property `P`, and that
it depends on `own` names alone; besides them it mentions only variables of successors with numbers
below `k`, which it binds. If the own names are the variables of a state `u` and the property is that
the valuation reads as a member of `X`, then `f` stands for the set `X` (`Describes`). The value of a
formula stands for the states that make it true by the expansion laws (`exists_value`).
-/

namespace CtlTableau

/-- Membership in a set of formulas is looked up. -/
instance {E : OrderedSet Formula} {e : Formula} : Decidable (e ∈ E) :=
  inferInstanceAs (Decidable (e ∈ E.toList))

/-! ## 1. States -/

/-- A truth value for every member of a set of elementary formulas. -/
abbrev State (E : OrderedSet Formula) := {e : Formula // e ∈ E} → Bool

instance (E : OrderedSet Formula) : Fintype {e : Formula // e ∈ E} :=
  inferInstanceAs (Fintype {e : Formula // e ∈ E.toList})

/-- There are as many states as there are sets of elementary formulas. -/
theorem card_state (E : OrderedSet Formula) : Fintype.card (State E) = 2 ^ E.size := by
  have h : Fintype.card {e : Formula // e ∈ E} = E.size := by
    rw [OrderedSet.size, ← List.toFinset_card_of_nodup E.nodup]
    exact Fintype.card_of_subtype _ fun e => List.mem_toFinset
  rw [Fintype.card_fun, Fintype.card_bool, h]

namespace State

variable {E : OrderedSet Formula}

/-- The formula is elementary, and true in the state. -/
def IsTrue (s : State E) (e : Formula) : Prop := ∃ h : e ∈ E, s ⟨e, h⟩ = true

theorem isTrue_iff {s : State E} {e : Formula} (h : e ∈ E) : s.IsTrue e ↔ s ⟨e, h⟩ = true :=
  ⟨fun ⟨_, h'⟩ => h', fun h' => ⟨h, h'⟩⟩

end State

namespace SymbolicState

/-! ## 2. Reading and writing valuations -/

/-- The state that a valuation of the variables is. -/
def read (u : SymbolicState) (ρ : String → Bool) : State u.elementary := fun e => ρ (u.nameFor e)

/-- Gives the variables the values of a state and leaves other names alone. -/
def write (u : SymbolicState) (ρ : String → Bool) (s : State u.elementary) : String → Bool :=
  fun x =>
    match u.table.lookup x with
    | some e => if h : e ∈ u.elementary then s ⟨e, h⟩ else false
    | none => ρ x

theorem isTrue_read_iff {u : SymbolicState} {ρ : String → Bool} {e : Formula}
    (h : e ∈ u.elementary) : (u.read ρ).IsTrue e ↔ ρ (u.nameFor e) = true :=
  State.isTrue_iff h

theorem read_write (u : SymbolicState) (ρ : String → Bool) (s : State u.elementary) :
    u.read (u.write ρ s) = s := by
  funext e
  simp [read, write, lookup_nameFor e.2, e.2]

theorem write_of_not_mem {u : SymbolicState} {x : String} (h : x ∉ u.names) (ρ : String → Bool)
    (s : State u.elementary) : u.write ρ s x = ρ x := by
  simp [write, lookup_of_not_mem h]

theorem read_congr {u : SymbolicState} {ρ σ : String → Bool} (h : ∀ x ∈ u.names, ρ x = σ x) :
    u.read ρ = u.read σ :=
  funext fun e => h _ (nameFor_mem_names e.2)

end SymbolicState

/-! ## 3. What formulas speak about -/

namespace Formula

/-- The name is a variable of a successor with a number below `k`. -/
def IsBelow (k : Nat) (x : String) : Prop :=
  ∃ n < k, ∃ i, x = SymbolicState.varName (Tableau.successorName n) i

/-- The formula is built by negation, conjunction, disjunction and "some", its free names are among
    `own` (or `TRUE`), and its other names are variables of successors with numbers below `k`. -/
structure Speaks (own : String → Prop) (k : Nat) (f : Formula) : Prop where
  existential : f.isExistential = true
  free : ∀ x ∈ f.freeNames, x = trueName ∨ own x
  bound : ∀ x ∈ f.boundNames, own x ∨ IsBelow k x
  names : ∀ x ∈ f.names, x = trueName ∨ own x ∨ IsBelow k x

variable {own own' : String → Prop} {k k' : Nat} {p q f : Formula}

theorem IsBelow.mono {x : String} (h : IsBelow k x) (hk : k ≤ k') : IsBelow k' x := by
  obtain ⟨n, hn, i, e⟩ := h
  exact ⟨n, Nat.lt_of_lt_of_le hn hk, i, e⟩

theorem Speaks.mono (h : f.Speaks own k) (hown : ∀ x, own x → own' x) (hk : k ≤ k') :
    f.Speaks own' k' where
  existential := h.existential
  free x hx := (h.free x hx).imp_right (hown x)
  bound x hx := (h.bound x hx).imp (hown x) fun hb => hb.mono hk
  names x hx := (h.names x hx).imp_right fun h' => h'.imp (hown x) fun hb => hb.mono hk

theorem speaks_atom {x : String} (h : x = trueName ∨ own x) : (atom x).Speaks own k where
  existential := rfl
  free y hy := by
    rw [List.mem_singleton.1 hy]
    exact h
  bound y hy := absurd hy List.not_mem_nil
  names y hy := by
    rw [List.mem_singleton.1 hy]
    exact h.imp_right Or.inl

theorem Speaks.not (h : p.Speaks own k) : (not p).Speaks own k where
  existential := by simpa [isExistential] using h.existential
  free := h.free
  bound := h.bound
  names := h.names

theorem Speaks.binary {op : BinaryOp} (hop : op = .and ∨ op = .or) (hp : p.Speaks own k)
    (hq : q.Speaks own k) : (binary op p q).Speaks own k where
  existential := by
    rcases hop with rfl | rfl <;> simp [isExistential, hp.existential, hq.existential]
  free x hx := (List.mem_append.1 hx).elim (hp.free x) (hq.free x)
  bound x hx := (List.mem_append.1 hx).elim (hp.bound x) (hq.bound x)
  names x hx := (List.mem_append.1 hx).elim (hp.names x) (hq.names x)

theorem Speaks.and (hp : p.Speaks own k) (hq : q.Speaks own k) : (and p q).Speaks own k :=
  .binary (Or.inl rfl) hp hq

theorem Speaks.or (hp : p.Speaks own k) (hq : q.Speaks own k) : (or p q).Speaks own k :=
  .binary (Or.inr rfl) hp hq

theorem speaks_conj {fs : List Formula} (h : ∀ f ∈ fs, f.Speaks own k) :
    (conj fs).Speaks own k :=
  joinLeft_induction (speaks_atom (Or.inl rfl)) (fun _ _ => .and) h

/-! ## 4. What formulas say -/

/-- The formula speaks about `own` names, and is true under the valuations with a property. -/
structure Says (own : String → Prop) (k : Nat) (f : Formula) (P : (String → Bool) → Prop) :
    Prop where
  speaks : f.Speaks own k
  means : ∀ ρ, f.eval ρ = true ↔ P ρ

/-- The formulas of a list say something together. -/
structure SayAll (own : String → Prop) (k : Nat) (fs : List Formula)
    (P : (String → Bool) → Prop) : Prop where
  speaks : ∀ f ∈ fs, f.Speaks own k
  means : ∀ ρ, (∀ f ∈ fs, f.eval ρ = true) ↔ P ρ

variable {P Q : (String → Bool) → Prop} {fs : List Formula}

theorem Says.mono (h : f.Says own k P) (hown : ∀ x, own x → own' x) (hk : k ≤ k') :
    f.Says own' k' P :=
  ⟨h.speaks.mono hown hk, h.means⟩

theorem Says.later (h : f.Says own k P) (hk : k ≤ k') : f.Says own k' P :=
  h.mono (fun _ => id) hk

theorem Says.congr (h : f.Says own k P) (e : ∀ ρ, P ρ ↔ Q ρ) : f.Says own k Q :=
  ⟨h.speaks, fun ρ => (h.means ρ).trans (e ρ)⟩

theorem says_truth : truth.Says own k fun _ => True :=
  ⟨speaks_atom (Or.inl rfl), fun ρ => by simp⟩

theorem says_falsity : falsity.Says own k fun _ => False :=
  ⟨(speaks_atom (Or.inl rfl)).not, fun ρ => by simp⟩

theorem Says.not (h : f.Says own k P) : (not f).Says own k fun ρ => ¬ P ρ :=
  ⟨h.speaks.not, fun ρ => by
    rw [eval_not, Bool.not_eq_true', ← Bool.not_eq_true, h.means]⟩

theorem Says.and (hp : p.Says own k P) (hq : q.Says own k Q) :
    (and p q).Says own k fun ρ => P ρ ∧ Q ρ :=
  ⟨hp.speaks.and hq.speaks, fun ρ => by
    rw [eval_and, Bool.and_eq_true, hp.means, hq.means]⟩

theorem Says.or (hp : p.Says own k P) (hq : q.Says own k Q) :
    (or p q).Says own k fun ρ => P ρ ∨ Q ρ :=
  ⟨hp.speaks.or hq.speaks, fun ρ => by
    rw [eval_or, Bool.or_eq_true, hp.means, hq.means]⟩

theorem sayAll_nil : SayAll own k [] fun _ => True :=
  ⟨fun f hf => absurd hf List.not_mem_nil, fun ρ => by simp⟩

theorem Says.cons (hf : f.Says own k P) (hfs : SayAll own k fs Q) :
    SayAll own k (f :: fs) fun ρ => P ρ ∧ Q ρ where
  speaks g hg := (List.mem_cons.1 hg).elim (fun e => e ▸ hf.speaks) (hfs.speaks g)
  means ρ := by rw [List.forall_mem_cons, hf.means, hfs.means]

theorem SayAll.mono (h : SayAll own k fs P) (hown : ∀ x, own x → own' x) :
    SayAll own' k fs P :=
  ⟨fun f hf => (h.speaks f hf).mono hown (Nat.le_refl k), h.means⟩

theorem SayAll.congr (h : SayAll own k fs P) (e : ∀ ρ, P ρ ↔ Q ρ) : SayAll own k fs Q :=
  ⟨h.speaks, fun ρ => (h.means ρ).trans (e ρ)⟩

theorem SayAll.append {gs : List Formula} (hf : SayAll own k fs P) (hg : SayAll own k gs Q) :
    SayAll own k (fs ++ gs) fun ρ => P ρ ∧ Q ρ where
  speaks f h := (List.mem_append.1 h).elim (hf.speaks f) (hg.speaks f)
  means ρ := by rw [List.forall_mem_append, hf.means, hg.means]

/-- Formulas that say something of the members of another list, one by one. -/
theorem sayAll_of_forall₂ {α : Type} {as : List α} {R : α → (String → Bool) → Prop}
    (h : List.Forall₂ (fun a f => f.Says own k (R a)) as fs) :
    SayAll own k fs fun ρ => ∀ a ∈ as, R a ρ := by
  induction h with
  | nil => exact ⟨sayAll_nil.speaks, fun ρ => by simp⟩
  | cons hf _ ih =>
    have h := hf.cons ih
    exact ⟨h.speaks, fun ρ => (h.means ρ).trans (by rw [List.forall_mem_cons])⟩

theorem SayAll.conj (h : SayAll own k fs P) : (conj fs).Says own k P :=
  ⟨speaks_conj h.speaks, fun ρ => (eval_conj_iff ρ fs).trans (h.means ρ)⟩

end Formula

namespace SymbolicState

/-- The formula stands for a set of states: it is over the variables of `u`, and true exactly where
    these read as a member. -/
abbrev Describes (u : SymbolicState) (k : Nat) (f : Formula) (X : Set (State u.elementary)) :
    Prop :=
  f.Says (· ∈ u.names) k fun ρ => u.read ρ ∈ X

/-- The formulas stand for a set of states together. -/
abbrev DescribeAll (u : SymbolicState) (k : Nat) (fs : List Formula)
    (X : Set (State u.elementary)) : Prop :=
  Formula.SayAll (· ∈ u.names) k fs fun ρ => u.read ρ ∈ X

variable {u : SymbolicState} {k : Nat} {f g : Formula} {X Y : Set (State u.elementary)}

/-- Two names for one set. -/
theorem Describes.congr (h : u.Describes k f X) (e : ∀ s, s ∈ X ↔ s ∈ Y) : u.Describes k f Y :=
  Formula.Says.congr h fun _ => e _

theorem describes_truth : u.Describes k .truth Set.univ := Formula.says_truth

theorem describes_falsity : u.Describes k .falsity ∅ := Formula.says_falsity

/-- The members of a described set are the states that make the formula true when written into a
    valuation. -/
theorem Describes.eval_write (h : u.Describes k f X) (ρ : String → Bool) (s : State u.elementary) :
    f.eval (u.write ρ s) = true ↔ s ∈ X := by
  rw [h.means, read_write]

/-! ## 5. The value of a formula -/

theorem describes_atom {e : Formula} (h : e ∈ u.elementary) :
    u.atomOf e = .ok (.atom (u.nameFor e)) ∧
      u.Describes k (.atom (u.nameFor e)) {s | s.IsTrue e} := by
  have hmem := nameFor_mem_names h
  refine ⟨atomOf_eq_ok_iff.2 ⟨h, rfl⟩, Formula.speaks_atom (Or.inr hmem), fun ρ => ?_⟩
  have hne : u.nameFor e ≠ Formula.trueName := fun e' => true_not_mem_names u (e' ▸ hmem)
  rw [Formula.eval_atom hne]
  exact (isTrue_read_iff h).symm

/-- **The value of a formula stands for the states that make it true** by the expansion laws. It
    exists if the formula asks for elementary formulas of the state only. -/
theorem exists_value (h : g.Within (· ∈ u.elementary)) (k : Nat) :
    ∃ a, u.value g = .ok a ∧ u.Describes k a {s | g.HoldsBy s.IsTrue} := by
  have hatom : ∀ x, (Formula.atom x).Within (· ∈ u.elementary) → ∃ a,
      u.value (.atom x) = .ok a ∧
        u.Describes k a {s | (Formula.atom x).HoldsBy s.IsTrue} := by
    intro x hx
    by_cases e : x = Formula.trueName
    · refine ⟨.truth, by simp [value, e], describes_truth.congr fun s => ?_⟩
      simp [Formula.HoldsBy, e]
    · obtain ⟨h1, h2⟩ := describes_atom (k := k) (hx.resolve_left e)
      refine ⟨_, by simp [value, e, h1], h2.congr fun s => ?_⟩
      simp [Formula.HoldsBy, e]
  induction g with
  | atom x => exact hatom x h
  | unary op p ih =>
    cases op with
    | not =>
      cases p with
      | atom x =>
        obtain ⟨a, h1, h2⟩ := hatom x h.2
        refine ⟨.not a, ?_, h2.not⟩
        by_cases e : x = Formula.trueName
        · simp only [value, e, if_true, Except.ok.injEq] at h1 ⊢
          rw [← h1]
        · simp only [value, e, if_false] at h1 ⊢
          simp [h1, Except.map]
      | unary op p => exact absurd h.1 (by simp [Formula.isAtom])
      | binary op p q => exact absurd h.1 (by simp [Formula.isAtom])
      | quant k x p => exact absurd h.1 (by simp [Formula.isAtom])
    | ex =>
      obtain ⟨h1, h2⟩ := describes_atom (k := k) (e := .ex p) h
      exact ⟨_, by simp [value, h1], h2⟩
    | ax =>
      obtain ⟨h1, h2⟩ := describes_atom (k := k) (e := .ex p.negate) h
      exact ⟨_, by simp [value, h1, Except.map], h2.not⟩
    | ef => exact h.elim
    | af => exact h.elim
    | eg => exact h.elim
    | ag => exact h.elim
  | binary op p q ihp ihq =>
    cases op with
    | imp => exact h.elim
    | and =>
      obtain ⟨a, ha, da⟩ := ihp h.1
      obtain ⟨b, hb, db⟩ := ihq h.2
      exact ⟨_, by simp [value, ha, hb, bind, Except.bind, pure, Except.pure], da.and db⟩
    | or =>
      obtain ⟨a, ha, da⟩ := ihp h.1
      obtain ⟨b, hb, db⟩ := ihq h.2
      exact ⟨_, by simp [value, ha, hb, bind, Except.bind, pure, Except.pure], da.or db⟩
    | eu =>
      obtain ⟨a, ha, da⟩ := ihp h.2.1
      obtain ⟨b, hb, db⟩ := ihq h.2.2
      obtain ⟨hn, dn⟩ := describes_atom (k := k) (e := .ex (.eu p q)) h.1
      exact ⟨_, by simp [value, ha, hb, hn, bind, Except.bind, pure, Except.pure],
        db.or (da.and dn)⟩
    | au =>
      obtain ⟨a, ha, da⟩ := ihp h.2.1
      obtain ⟨b, hb, db⟩ := ihq h.2.2
      obtain ⟨hn, dn⟩ := describes_atom (k := k) (e := .ex (.er p.negate q.negate)) h.1
      exact ⟨_, by simp [value, ha, hb, hn, bind, Except.bind, pure, Except.pure],
        db.or (da.and dn.not)⟩
    | er =>
      obtain ⟨a, ha, da⟩ := ihp h.2.1
      obtain ⟨b, hb, db⟩ := ihq h.2.2
      obtain ⟨hn, dn⟩ := describes_atom (k := k) (e := .ex (.er p q)) h.1
      exact ⟨_, by simp [value, ha, hb, hn, bind, Except.bind, pure, Except.pure],
        db.and (da.or dn)⟩
    | ar =>
      obtain ⟨a, ha, da⟩ := ihp h.2.1
      obtain ⟨b, hb, db⟩ := ihq h.2.2
      obtain ⟨hn, dn⟩ := describes_atom (k := k) (e := .ex (.eu p.negate q.negate)) h.1
      exact ⟨_, by simp [value, ha, hb, hn, bind, Except.bind, pure, Except.pure],
        db.and (da.or dn.not)⟩
  | quant k x p ih => exact h.elim

end SymbolicState

end CtlTableau
