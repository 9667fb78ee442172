import CtlTableau.Clausal.Circuit
import CtlTableau.Proofs.Clauses

/-!
# Named gates have the value of what they name

A valuation respects definitions if every name has the value of its gate. Naming the gates of a
circuit gives a literal that has the value of the circuit under every such valuation
(`Circuit.names_define`); the defining clauses hold under these valuations and no others
(`Definitions.clauses_iff`); and whatever the values of the inputs are, they can be extended to the
names (`Definitions.exists_respects`). The last needs that a gate is over names that are older than
its own, which is why arguments are named first.
-/

namespace CtlTableau

/-! ## 1. Values -/

namespace Circuit

/-- The value of a circuit. -/
def eval (ρ : Nat → Bool) : Circuit → Bool
  | .input id => ρ id
  | .not c => !c.eval ρ
  | .and c d => c.eval ρ && d.eval ρ
  | .or c d => c.eval ρ || d.eval ρ

/-- The inputs of a circuit. -/
def inputs : Circuit → List Nat
  | .input id => [id]
  | .not c => c.inputs
  | .and c d => c.inputs ++ d.inputs
  | .or c d => c.inputs ++ d.inputs

theorem eval_congr {c : Circuit} {ρ σ : Nat → Bool} (h : ∀ i ∈ c.inputs, ρ i = σ i) :
    c.eval ρ = c.eval σ := by
  induction c with
  | input id => exact h id (List.mem_singleton_self id)
  | not c ih => rw [eval, eval, ih h]
  | and c d ihc ihd =>
    rw [eval, eval, ihc fun i hi => h i (List.mem_append_left _ hi),
      ihd fun i hi => h i (List.mem_append_right _ hi)]
  | or c d ihc ihd =>
    rw [eval, eval, ihc fun i hi => h i (List.mem_append_left _ hi),
      ihd fun i hi => h i (List.mem_append_right _ hi)]

end Circuit

namespace Gate

/-- The literals that a gate joins. -/
def operands : Gate → List Int
  | .not a => [a]
  | .and a b => [a, b]
  | .or a b => [a, b]

/-- The value of a gate. -/
def eval (ρ : Nat → Bool) : Gate → Bool
  | .not a => !litTrue ρ a
  | .and a b => litTrue ρ a && litTrue ρ b
  | .or a b => litTrue ρ a || litTrue ρ b

theorem eval_congr {g : Gate} {ρ σ : Nat → Bool} (h : ∀ a ∈ g.operands, ρ a.natAbs = σ a.natAbs) :
    g.eval ρ = g.eval σ := by
  cases g with
  | not a => simp [eval, litTrue, h a (by simp [operands])]
  | and a b => simp [eval, litTrue, h a (by simp [operands]), h b (by simp [operands])]
  | or a b => simp [eval, litTrue, h a (by simp [operands]), h b (by simp [operands])]

/-- The clauses of a gate say that the literal has the value of the gate. -/
theorem clauses_iff {g : Gate} {x : Int} (hx : x ≠ 0) (hg : ∀ a ∈ g.operands, a ≠ 0)
    (ρ : Nat → Bool) : clausesTrue ρ (g.clauses x) = true ↔ litTrue ρ x = g.eval ρ := by
  cases g with
  | not a =>
    have ha := hg a (by simp [operands])
    simp only [clauses, clausesTrue, clauseTrue, List.all_cons, List.all_nil, List.any_cons,
      List.any_nil, litTrue_neg hx, litTrue_neg ha, eval]
    cases litTrue ρ x <;> cases litTrue ρ a <;> decide
  | and a b =>
    have ha := hg a (by simp [operands])
    have hb := hg b (by simp [operands])
    simp only [clauses, clausesTrue, clauseTrue, List.all_cons, List.all_nil, List.any_cons,
      List.any_nil, litTrue_neg hx, litTrue_neg ha, litTrue_neg hb, eval]
    cases litTrue ρ x <;> cases litTrue ρ a <;> cases litTrue ρ b <;> decide
  | or a b =>
    have ha := hg a (by simp [operands])
    have hb := hg b (by simp [operands])
    simp only [clauses, clausesTrue, clauseTrue, List.all_cons, List.all_nil, List.any_cons,
      List.any_nil, litTrue_neg hx, litTrue_neg ha, litTrue_neg hb, eval]
    cases litTrue ρ x <;> cases litTrue ρ a <;> cases litTrue ρ b <;> decide

/-- Every literal of the clauses is of the gate's variable or of an operand's, and none stands beside
    its negative. -/
theorem clauses_proper {g : Gate} {x : Int} (hg : ∀ a ∈ g.operands, 0 < a ∧ a < x) {c : List Int}
    (hc : c ∈ g.clauses x) {l : Int} (hl : l ∈ c) :
    l ≠ 0 ∧ l.natAbs ≤ x.natAbs ∧ -l ∉ c := by
  cases g with
  | not a =>
    have ha := hg a (by simp [operands])
    simp only [clauses, List.mem_cons, List.not_mem_nil, or_false] at hc
    rcases hc with rfl | rfl <;> simp only [List.mem_cons, List.not_mem_nil, or_false] at hl ⊢ <;>
      omega
  | and a b =>
    have ha := hg a (by simp [operands])
    have hb := hg b (by simp [operands])
    simp only [clauses, List.mem_cons, List.not_mem_nil, or_false] at hc
    rcases hc with rfl | rfl | rfl <;>
      simp only [List.mem_cons, List.not_mem_nil, or_false] at hl ⊢ <;> omega
  | or a b =>
    have ha := hg a (by simp [operands])
    have hb := hg b (by simp [operands])
    simp only [clauses, List.mem_cons, List.not_mem_nil, or_false] at hc
    rcases hc with rfl | rfl | rfl <;>
      simp only [List.mem_cons, List.not_mem_nil, or_false] at hl ⊢ <;> omega

end Gate

/-! ## 2. Definitions -/

namespace Definitions

/-- A literal that stands for an input or for one of the first gates. -/
def Names (offset place : Nat) (a : Int) : Prop := 0 < a ∧ a ≤ offset + place

/-- Every gate is found where it is, and is over literals that were named before it. -/
structure Proper (d : Definitions) : Prop where
  indexed : ∀ (g : Gate) (p : Nat), d.index[g]? = some p ↔ d.gates[p]? = some g
  ordered : ∀ (p : Nat) (g : Gate), d.gates[p]? = some g → ∀ a ∈ g.operands, Names d.offset p a

/-- Nothing is renamed or forgotten, more may be named. -/
structure Extends (d d' : Definitions) : Prop where
  offset : d'.offset = d.offset
  gates : ∀ (p : Nat) (g : Gate), d.gates[p]? = some g → d'.gates[p]? = some g
  size : d.gates.size ≤ d'.gates.size

/-- Every name has the value of its gate. -/
def Respects (d : Definitions) (ρ : Nat → Bool) : Prop :=
  ∀ (p : Nat) (g : Gate), d.gates[p]? = some g → ρ (d.offset + p + 1) = g.eval ρ

variable {d d' d'' : Definitions} {g : Gate} {ρ : Nat → Bool}

theorem Names.mono {offset place place' : Nat} {a : Int} (h : Names offset place a)
    (hp : place ≤ place') : Names offset place' a := by
  unfold Names at *
  omega

theorem Extends.refl (d : Definitions) : d.Extends d := ⟨rfl, fun _ _ h => h, Nat.le_refl _⟩

theorem Extends.trans (h : d.Extends d') (h' : d'.Extends d'') : d.Extends d'' :=
  ⟨h'.offset.trans h.offset, fun p g hp => h'.gates p g (h.gates p g hp), Nat.le_trans h.size h'.size⟩

theorem Respects.of_extends (hr : d'.Respects ρ) (h : d.Extends d') : d.Respects ρ := by
  intro p g hp
  rw [← h.offset]
  exact hr p g (h.gates p g hp)

theorem proper_empty (offset : Nat) : (empty offset).Proper where
  indexed g p := by simp [empty]
  ordered p g h := by simp [empty] at h

/-- A gate over names has a name afterwards. -/
theorem proper_name (hd : d.Proper) (hg : ∀ a ∈ g.operands, Names d.offset d.gates.size a) :
    (d.name g).2.Proper ∧ d.Extends (d.name g).2 ∧
      ∃ p, (d.name g).2.gates[p]? = some g ∧ (d.name g).1 = d.nameAt p := by
  unfold name
  split
  · next p hp => exact ⟨hd, .refl d, p, (hd.indexed g p).1 hp, rfl⟩
  · next hnew =>
    have place : ∀ (p : Nat) (h : Gate), (d.gates.push g)[p]? = some h ↔
        p = d.gates.size ∧ h = g ∨ d.gates[p]? = some h := by
      intro p h
      rw [Array.getElem?_push]
      split
      · next e =>
        subst e
        simp [eq_comm]
      · next e => simp [e]
    have new : ∀ p : Nat, d.gates[p]? ≠ some g := fun p hp => by
      rw [← hd.indexed, hnew] at hp
      cases hp
    refine ⟨⟨fun h p => ?_, fun p h hp => ?_⟩, ⟨rfl, fun p h hp => (place p h).2 (Or.inr hp), ?_⟩,
      d.gates.size, (place _ _).2 (Or.inl ⟨rfl, rfl⟩), rfl⟩
    · dsimp only
      rw [place, Std.HashMap.getElem?_insert]
      by_cases e : g = h
      · subst e
        simp [new, eq_comm]
      · simp [e, Ne.symm e, hd.indexed]
    · rcases (place p h).1 hp with ⟨rfl, rfl⟩ | hp
      · exact hg
      · exact hd.ordered p h hp
    · simp

/-- Every clause belongs to a gate. -/
theorem mem_clauses {c : List Int} : c ∈ d.clauses ↔
    ∃ (p : Nat) (g : Gate), d.gates[p]? = some g ∧ c ∈ g.clauses (d.nameAt p) := by
  simp only [clauses, List.mem_flatMap, Prod.exists, List.mem_zipIdx_iff_getElem?,
    Array.getElem?_toList]
  exact exists_comm.trans (exists_congr fun p => exists_congr fun g => Iff.rfl)

/-- The clauses of definitions are over inputs and names, and take each in one sign only. -/
theorem clauses_proper (hd : d.Proper) {c : List Int} (hc : c ∈ d.clauses) {l : Int} (hl : l ∈ c) :
    l ≠ 0 ∧ l.natAbs ≤ d.offset + d.gates.size ∧ -l ∉ c := by
  obtain ⟨p, g, hp, hc⟩ := mem_clauses.1 hc
  have hlt := (Array.getElem?_eq_some_iff.1 hp).1
  have earlier : ∀ a ∈ g.operands, 0 < a ∧ a < d.nameAt p := by
    intro a ha
    have h := hd.ordered p g hp a ha
    unfold Names at h
    unfold nameAt
    omega
  obtain ⟨h, hle, h'⟩ := Gate.clauses_proper earlier hc hl
  unfold nameAt at hle
  exact ⟨h, by omega, h'⟩

/-- The clauses of all definitions hold where the definitions are respected. -/
theorem clauses_iff (hd : d.Proper) : clausesTrue ρ d.clauses = true ↔ d.Respects ρ := by
  have gate : ∀ (p : Nat) (g : Gate), d.gates[p]? = some g →
      (clausesTrue ρ (g.clauses (d.nameAt p)) = true ↔ ρ (d.offset + p + 1) = g.eval ρ) := by
    intro p g hp
    have hx : 0 < d.offset + p + 1 := Nat.succ_pos _
    rw [Gate.clauses_iff (by unfold nameAt; omega) fun a ha =>
      Int.ne_of_gt (hd.ordered p g hp a ha).1, nameAt, litTrue_natCast hx]
  rw [clausesTrue_iff]
  constructor
  · intro h p g hp
    exact (gate p g hp).1 (clausesTrue_iff.2 fun c hc => h c (mem_clauses.2 ⟨p, g, hp, hc⟩))
  · intro h c hc
    obtain ⟨p, g, hp, hc⟩ := mem_clauses.1 hc
    exact clausesTrue_iff.1 ((gate p g hp).2 (h p g hp)) c hc

/-- **Any values of the inputs extend to the names.** -/
theorem exists_respects (hd : d.Proper) (ρ : Nat → Bool) :
    ∃ σ, (∀ i, i ≤ d.offset ∨ d.offset + d.gates.size < i → σ i = ρ i) ∧ d.Respects σ := by
  -- the names get their values one after another
  have first : ∀ n ≤ d.gates.size, ∃ σ,
      (∀ i, i ≤ d.offset ∨ d.offset + n < i → σ i = ρ i) ∧
        ∀ (p : Nat) (g : Gate), p < n → d.gates[p]? = some g → σ (d.offset + p + 1) = g.eval σ := by
    intro n
    induction n with
    | zero => exact fun _ => ⟨ρ, fun _ _ => rfl, fun p g hp => absurd hp (Nat.not_lt_zero p)⟩
    | succ n ih =>
      intro hn
      obtain ⟨σ, hσ, hr⟩ := ih (Nat.le_of_succ_le hn)
      have hget : d.gates[n]? = some d.gates[n] := Array.getElem?_eq_getElem hn
      have same : ∀ (p : Nat) (h : Gate), p ≤ n → d.gates[p]? = some h →
          h.eval (Function.update σ (d.offset + n + 1) (d.gates[n].eval σ)) = h.eval σ := by
        intro p h hp hh
        refine Gate.eval_congr fun a ha => Function.update_of_ne ?_ _ _
        have ha' := hd.ordered p h hh a ha
        unfold Names at ha'
        omega
      refine ⟨Function.update σ (d.offset + n + 1) (d.gates[n].eval σ), fun i hi => ?_,
        fun p h hp hh => ?_⟩
      · rw [Function.update_of_ne (by omega)]
        exact hσ i (by omega)
      · rcases Nat.lt_succ_iff_lt_or_eq.1 hp with hp | rfl
        · rw [same p h (Nat.le_of_lt hp) hh, Function.update_of_ne (by omega)]
          exact hr p h hp hh
        · rw [same p h (Nat.le_refl p) hh, Function.update_self]
          rw [hget] at hh
          cases hh
          rfl
  obtain ⟨σ, hσ, hr⟩ := first d.gates.size (Nat.le_refl _)
  refine ⟨σ, hσ, fun p g hp => hr p g ?_ hp⟩
  exact (Array.getElem?_eq_some_iff.1 hp).1

end Definitions

/-! ## 3. Circuits -/

namespace Circuit

open Definitions

/-- What naming the gates of a circuit comes to: more definitions, and a literal that has the value of
    the circuit where they are respected. -/
structure NamedBy (c : Circuit) (d : Definitions) (r : Int × Definitions) : Prop where
  proper : r.2.Proper
  grows : d.Extends r.2
  names : Names d.offset r.2.gates.size r.1
  value : ∀ ρ, r.2.Respects ρ → litTrue ρ r.1 = c.eval ρ

/-- The last step of naming: the gate over arguments that have names. -/
theorem namedBy_name {c : Circuit} {g : Gate} {d d' : Definitions} (hd' : d'.Proper)
    (h : d.Extends d') (hg : ∀ a ∈ g.operands, Names d.offset d'.gates.size a)
    (value : ∀ ρ, d'.Respects ρ → g.eval ρ = c.eval ρ) : c.NamedBy d (d'.name g) := by
  rw [← h.offset] at hg
  obtain ⟨hp, hext, p, hget, hname⟩ := proper_name hd' hg
  have hlt := (Array.getElem?_eq_some_iff.1 hget).1
  refine ⟨hp, h.trans hext, ?_, fun ρ hr => ?_⟩
  · rw [hname, nameAt, h.offset]
    unfold Names
    omega
  · rw [hname, nameAt, litTrue_natCast (Nat.succ_pos _), ← value ρ (hr.of_extends hext),
      ← hext.offset]
    exact hr p g hget

/-- **The name of a circuit has its value** where the definitions are respected. -/
theorem names_define {c : Circuit} {d : Definitions} (hd : d.Proper)
    (hc : ∀ i ∈ c.inputs, 1 ≤ i ∧ i ≤ d.offset) : c.NamedBy d (c.define d) := by
  induction c generalizing d with
  | input id =>
    have h := hc id (List.mem_singleton_self id)
    refine ⟨hd, .refl d, ?_, fun ρ _ => litTrue_natCast h.1⟩
    show Names d.offset d.gates.size (id : Int)
    unfold Names
    omega
  | not c ih =>
    have h := ih hd hc
    refine namedBy_name h.proper h.grows (fun a ha => ?_) fun ρ hr => ?_
    · rw [List.mem_singleton.1 ha]
      exact h.names
    · rw [Gate.eval, h.value ρ hr, eval]
  | and c c' ihc ihc' =>
    have h := ihc hd fun i hi => hc i (List.mem_append_left _ hi)
    have h' := ihc' h.proper fun i hi => h.grows.offset ▸ hc i (List.mem_append_right _ hi)
    refine namedBy_name h'.proper (h.grows.trans h'.grows) (fun a ha => ?_) fun ρ hr => ?_
    · rw [Gate.operands, List.mem_cons, List.mem_singleton] at ha
      rcases ha with rfl | rfl
      · exact h.names.mono h'.grows.size
      · exact h.grows.offset ▸ h'.names
    · rw [Gate.eval, h.value ρ (hr.of_extends h'.grows), h'.value ρ hr, eval]
  | or c c' ihc ihc' =>
    have h := ihc hd fun i hi => hc i (List.mem_append_left _ hi)
    have h' := ihc' h.proper fun i hi => h.grows.offset ▸ hc i (List.mem_append_right _ hi)
    refine namedBy_name h'.proper (h.grows.trans h'.grows) (fun a ha => ?_) fun ρ hr => ?_
    · rw [Gate.operands, List.mem_cons, List.mem_singleton] at ha
      rcases ha with rfl | rfl
      · exact h.names.mono h'.grows.size
      · exact h.grows.offset ▸ h'.names
    · rw [Gate.eval, h.value ρ (hr.of_extends h'.grows), h'.value ρ hr, eval]

end Circuit

end CtlTableau
