import CtlTableau.Diagram
import CtlTableau.Proofs.Prefixes

/-!
# Diagrams are a normal form

The value of a diagram follows its tests down to a constant. In a table of reduced and ordered
diagrams two diagrams with the same value everywhere are the same node (`Reduced.eq_of_value`), so
which levels a diagram tests can be read off the function it stands for (`Reduced.le_level`). That is
why it is enough to know what function every remembered result stands for (`Sound`): each operation
keeps a table sound, changes no diagram that is in it, and gives the diagram of the function it is
named after (`Computes`).
-/

namespace CtlTableau.DiagramTable

variable {t t' t'' : DiagramTable} {f g r : Ref} {n : Node} {ρ : Nat → Bool} {m : (Nat → Bool) → Bool}

/-! ## 1. Values -/

/-- The value of a diagram where the levels have the given ones. -/
def value (t : DiagramTable) (ρ : Nat → Bool) (f : Ref) : Bool :=
  if f = falsum then false
  else if f = verum then true
  else
    match t.nodes[f]? with
    | none => false
    | some n =>
      if _h : n.low < f ∧ n.high < f then
        if ρ n.level then t.value ρ n.high else t.value ρ n.low
      else false
termination_by f
decreasing_by
  · exact _h.2
  · exact _h.1

@[simp] theorem value_falsum (t : DiagramTable) (ρ : Nat → Bool) : t.value ρ falsum = false := by
  rw [value, if_pos rfl]

@[simp] theorem value_verum (t : DiagramTable) (ρ : Nat → Bool) : t.value ρ verum = true := by
  rw [value, if_neg (by decide), if_pos rfl]

/-- The diagram is a node of the table, with this test. -/
def Tests (t : DiagramTable) (f : Ref) (n : Node) : Prop := 2 ≤ f ∧ t.nodes[f]? = some n

theorem Tests.lt_size (h : t.Tests f n) : f < t.nodes.size :=
  (Array.getElem?_eq_some_iff.1 h.2).1

theorem Tests.unique {n' : Node} (h : t.Tests f n) (h' : t.Tests f n') : n = n' :=
  Option.some.inj (h.2.symm.trans h'.2)

theorem Tests.ne_falsum (h : t.Tests f n) : f ≠ falsum := fun e => absurd (e ▸ h.1) (by decide)

theorem Tests.ne_verum (h : t.Tests f n) : f ≠ verum := fun e => absurd (e ▸ h.1) (by decide)

/-- A diagram in the table is a constant or a test. -/
theorem cases_of_lt (h : f < t.nodes.size) : f = falsum ∨ f = verum ∨ ∃ n, t.Tests f n := by
  rcases Nat.lt_or_ge f 2 with h2 | h2
  · exact (Nat.le_one_iff_eq_zero_or_eq_one.1 (Nat.lt_succ_iff.1 h2)).imp id Or.inl
  · exact Or.inr (Or.inr ⟨_, h2, Array.getElem?_eq_getElem h⟩)

/-! ## 2. Reduced tables -/

/-- Every node tests a level before those of its children, goes on to two older diagrams that differ,
    and is found by what it tests. -/
structure Reduced (t : DiagramTable) : Prop where
  constants : 2 ≤ t.nodes.size
  older : ∀ {f n}, t.Tests f n → n.low < f ∧ n.high < f
  differ : ∀ {f n}, t.Tests f n → n.low ≠ n.high
  ordered : ∀ {f n}, t.Tests f n → ∀ {c m}, c = n.low ∨ c = n.high → t.Tests c m → n.level < m.level
  entered : ∀ {f n}, t.unique[(n.level, n.low, n.high)]? = some f ↔ t.Tests f n

namespace Reduced

theorem value_of_tests (ht : t.Reduced) (hf : t.Tests f n) :
    t.value ρ f = if ρ n.level then t.value ρ n.high else t.value ρ n.low := by
  rw [value, if_neg hf.ne_falsum, if_neg hf.ne_verum, hf.2]
  exact dif_pos (ht.older hf)

/-- Diagrams are built from the constants. -/
theorem induction {P : Ref → Prop} (ht : t.Reduced) (falsum : P falsum) (verum : P verum)
    (tests : ∀ {f n}, t.Tests f n → P n.low → P n.high → P f) (hf : f < t.nodes.size) : P f := by
  induction f using Nat.strongRecOn with
  | _ f ih =>
    obtain rfl | rfl | ⟨n, hn⟩ := cases_of_lt hf
    · exact falsum
    · exact verum
    · obtain ⟨hlow, hhigh⟩ := ht.older hn
      exact tests hn (ih _ hlow (Nat.lt_trans hlow hf)) (ih _ hhigh (Nat.lt_trans hhigh hf))

/-- A diagram reads no level before the one that it tests. -/
theorem reads_of_le (ht : t.Reduced) (hf : f < t.nodes.size) {l : Nat}
    (hl : ∀ {n}, t.Tests f n → l ≤ n.level) : Reads (l ≤ ·) fun ρ => t.value ρ f := by
  intro ρ τ h
  refine ht.induction (P := fun f => (∀ {n}, t.Tests f n → l ≤ n.level) →
    t.value ρ f = t.value τ f) (by simp) (by simp) (fun {f n} hn ihl ihh hl => ?_) hf hl
  have below : ∀ {c}, c = n.low ∨ c = n.high → ∀ {m}, t.Tests c m → l ≤ m.level := fun hc m hm =>
    Nat.le_of_lt (Nat.lt_of_le_of_lt (hl hn) (ht.ordered hn hc hm))
  rw [ht.value_of_tests hn, ht.value_of_tests hn, h n.level (hl hn),
    ihl (below (Or.inl rfl)), ihh (below (Or.inr rfl))]

/-- The children do not read the level of their parent. -/
theorem reads_child (ht : t.Reduced) (hf : t.Tests f n) {c : Ref} (hc : c = n.low ∨ c = n.high) :
    c < t.nodes.size ∧ Reads (n.level < ·) fun ρ => t.value ρ c := by
  have older := ht.older hf
  have lt : c < f := hc.elim (fun e => e ▸ older.1) fun e => e ▸ older.2
  have lt := Nat.lt_trans lt hf.lt_size
  exact ⟨lt, ht.reads_of_le lt (ht.ordered hf hc)⟩

/-- Fixing the level of a node chooses a child. -/
theorem value_update_level (ht : t.Reduced) (hf : t.Tests f n) (v : Bool) :
    t.value (Function.update ρ n.level v) f = t.value ρ (if v then n.high else n.low) := by
  have child : ∀ {c}, c = n.low ∨ c = n.high →
      t.value (Function.update ρ n.level v) c = t.value ρ c := fun hc =>
    (ht.reads_child hf hc).2 _ _ fun i hi => Function.update_of_ne (Nat.ne_of_gt hi) _ _
  rw [ht.value_of_tests hf, Function.update_self]
  cases v with
  | false => exact child (Or.inl rfl)
  | true => exact child (Or.inr rfl)

/-- What does not depend on the level of a node has the same value below both sides of it. -/
theorem value_low_eq_high (ht : t.Reduced) (hf : t.Tests f n) {N : Nat → Prop}
    (hN : ¬ N n.level) (h : Reads N fun ρ => t.value ρ f) (ρ : Nat → Bool) :
    t.value ρ n.low = t.value ρ n.high := by
  have e := h (Function.update ρ n.level false) (Function.update ρ n.level true) fun i hi => by
    have hne : i ≠ n.level := fun e => hN (e ▸ hi)
    rw [Function.update_of_ne hne, Function.update_of_ne hne]
  dsimp only at e
  rwa [ht.value_update_level hf, ht.value_update_level hf] at e

/-- **Diagrams are a normal form**: the same value everywhere, the same diagram. -/
theorem eq_of_value (ht : t.Reduced) (hf : f < t.nodes.size) (hg : g < t.nodes.size)
    (h : ∀ ρ, t.value ρ f = t.value ρ g) : f = g := by
  -- by induction on a bound for both; a node whose children agree everywhere would not be there
  have bounded : ∀ b ≤ t.nodes.size, ∀ {f g}, f < b → g < b →
      (∀ ρ, t.value ρ f = t.value ρ g) → f = g := by
    intro b
    induction b with
    | zero => exact fun _ _ _ hf => absurd hf (Nat.not_lt_zero _)
    | succ b ih =>
      intro hb f g hf hg h
      have ih := @ih (Nat.le_of_succ_le hb)
      have child : ∀ {f n}, f < b + 1 → t.Tests f n → n.low < b ∧ n.high < b := fun hf hn =>
        (ht.older hn).imp (fun h => Nat.lt_of_lt_of_le h (Nat.le_of_lt_succ hf)) fun h =>
          Nat.lt_of_lt_of_le h (Nat.le_of_lt_succ hf)
      -- a node depends on the level that it tests
      have depends : ∀ {f n} {N : Nat → Prop}, f < b + 1 → t.Tests f n → ¬ N n.level →
          ¬ Reads N fun ρ => t.value ρ f := by
        intro f n N hf hn hN hr
        obtain ⟨hlow, hhigh⟩ := child hf hn
        exact ht.differ hn (ih hlow hhigh (ht.value_low_eq_high hn hN hr))
      have fromLevel : ∀ {f n}, f < b + 1 → t.Tests f n →
          Reads (n.level ≤ ·) fun ρ => t.value ρ f := fun hf hn =>
        ht.reads_of_le hn.lt_size fun h' => Nat.le_of_eq (congrArg Node.level (hn.unique h'))
      have notConstant : ∀ {f n}, f < b + 1 → t.Tests f n → ∀ c, ¬ ∀ ρ, t.value ρ f = c :=
        fun hf hn c hc => depends (N := fun _ => False) hf hn id fun ρ τ _ =>
          (hc ρ).trans (hc τ).symm
      have same : (fun ρ => t.value ρ f) = fun ρ => t.value ρ g := funext h
      rcases cases_of_lt (Nat.lt_of_lt_of_le hf hb) with rfl | rfl | ⟨nf, hnf⟩ <;>
        rcases cases_of_lt (Nat.lt_of_lt_of_le hg hb) with rfl | rfl | ⟨ng, hng⟩
      · rfl
      · simpa using h fun _ => false
      · exact absurd (fun ρ => (h ρ).symm.trans (t.value_falsum ρ)) (notConstant hg hng _)
      · simpa using h fun _ => false
      · rfl
      · exact absurd (fun ρ => (h ρ).symm.trans (t.value_verum ρ)) (notConstant hg hng _)
      · exact absurd (fun ρ => (h ρ).trans (t.value_falsum ρ)) (notConstant hf hnf _)
      · exact absurd (fun ρ => (h ρ).trans (t.value_verum ρ)) (notConstant hf hnf _)
      · rcases Nat.lt_trichotomy nf.level ng.level with hlt | heq | hgt
        · exact absurd (same ▸ fromLevel hg hng) (depends hf hnf (Nat.not_le_of_lt hlt))
        · have sides : ∀ (v : Bool) ρ, t.value ρ (if v then nf.high else nf.low) =
              t.value ρ (if v then ng.high else ng.low) := by
            intro v ρ
            rw [← ht.value_update_level hnf, ← ht.value_update_level hng, heq, h]
          have low := ih (child hf hnf).1 (child hg hng).1 (sides false)
          have high := ih (child hf hnf).2 (child hg hng).2 (sides true)
          have e := ht.entered.2 hnf
          rw [heq, low, high, ht.entered.2 hng] at e
          exact (Option.some.inj e).symm
        · exact absurd (same ▸ fromLevel hf hnf) (depends hg hng (Nat.not_le_of_lt hgt))
  exact bounded _ (Nat.le_refl _) hf hg h

/-- Which levels a diagram tests shows in its function. -/
theorem le_level (ht : t.Reduced) (hf : t.Tests f n) {l : Nat}
    (h : Reads (l ≤ ·) fun ρ => t.value ρ f) : l ≤ n.level := by
  refine Nat.le_of_not_lt fun hlt => ht.differ hf ?_
  have low := (ht.reads_child hf (Or.inl rfl)).1
  have high := (ht.reads_child hf (Or.inr rfl)).1
  exact ht.eq_of_value low high (ht.value_low_eq_high hf (Nat.not_le_of_lt hlt) h)

end Reduced

/-! ## 3. Sound tables -/

/-- The diagram is in the table and stands for a function. -/
structure Denotes (t : DiagramTable) (f : Ref) (m : (Nat → Bool) → Bool) : Prop where
  lt_size : f < t.nodes.size
  value : ∀ ρ, t.value ρ f = m ρ

/-- Every diagram of one table is in the other. -/
structure Extends (t t' : DiagramTable) : Prop where
  size : t.nodes.size ≤ t'.nodes.size
  nodes : ∀ {f n}, t.Tests f n → t'.Tests f n

theorem Extends.refl (t : DiagramTable) : t.Extends t := ⟨Nat.le_refl _, id⟩

theorem Extends.trans (h : t.Extends t') (h' : t'.Extends t'') : t.Extends t'' :=
  ⟨Nat.le_trans h.size h'.size, fun hn => h'.nodes (h.nodes hn)⟩

/-- The projection of a function to the other levels. -/
def projected (m : (Nat → Bool) → Bool) (l : Nat) (ρ : Nat → Bool) : Bool :=
  m (Function.update ρ l false) || m (Function.update ρ l true)

theorem value_of_extends (ht : t.Reduced) (ht' : t'.Reduced) (h : t.Extends t')
    (hf : f < t.nodes.size) (ρ : Nat → Bool) : t'.value ρ f = t.value ρ f := by
  refine ht.induction (P := fun f => t'.value ρ f = t.value ρ f) (by simp) (by simp)
    (fun {f n} hn ihl ihh => ?_) hf
  rw [ht.value_of_tests hn, ht'.value_of_tests (h.nodes hn), ihl, ihh]

theorem Denotes.of_extends (hd : t.Denotes f m) (ht : t.Reduced) (ht' : t'.Reduced)
    (h : t.Extends t') : t'.Denotes f m where
  lt_size := Nat.lt_of_lt_of_le hd.lt_size h.size
  value ρ := (value_of_extends ht ht' h hd.lt_size ρ).trans (hd.value ρ)

/-- Remembered negations are right. -/
def Negates (t : DiagramTable) (results : Std.HashMap Ref Ref) : Prop :=
  ∀ {f r : Ref}, results[f]? = some r → f < t.nodes.size ∧ t.Denotes r fun ρ => !t.value ρ f

/-- Remembered conjunctions are right. -/
def Joins (t : DiagramTable) (results : Std.HashMap (Ref × Ref) Ref) : Prop :=
  ∀ {f g r : Ref}, results[(f, g)]? = some r →
    f < t.nodes.size ∧ g < t.nodes.size ∧ t.Denotes r fun ρ => t.value ρ f && t.value ρ g

/-- Remembered projections are right. -/
def Projects (t : DiagramTable) (results : Std.HashMap (Ref × Nat) Ref) : Prop :=
  ∀ {f r : Ref} {l : Nat}, results[(f, l)]? = some r →
    f < t.nodes.size ∧ t.Denotes r (projected (fun ρ => t.value ρ f) l)

/-- A reduced table whose remembered results are right. -/
structure Sound (t : DiagramTable) : Prop extends t.Reduced where
  negates : t.Negates t.negations
  joins : t.Joins t.conjunctions
  projects : t.Projects t.projections

/-- Results stay right in a larger table. -/
theorem results_of_extends (ht : t.Reduced) (ht' : t'.Reduced) (h : t.Extends t') :
    (∀ {N}, t.Negates N → t'.Negates N) ∧ (∀ {C}, t.Joins C → t'.Joins C) ∧
      ∀ {P}, t.Projects P → t'.Projects P := by
  have same : ∀ {f}, f < t.nodes.size → ∀ ρ, t'.value ρ f = t.value ρ f :=
    fun hf => value_of_extends ht ht' h hf
  have lt : ∀ {f}, f < t.nodes.size → f < t'.nodes.size := fun hf => Nat.lt_of_lt_of_le hf h.size
  refine ⟨fun {N} hN f r hr => ?_, fun {C} hC f g r hr => ?_, fun {P} hP f r l hr => ?_⟩
  · obtain ⟨hf, hd⟩ := hN hr
    simp only [same hf]
    exact ⟨lt hf, hd.of_extends ht ht' h⟩
  · obtain ⟨hf, hg, hd⟩ := hC hr
    simp only [same hf, same hg]
    exact ⟨lt hf, lt hg, hd.of_extends ht ht' h⟩
  · obtain ⟨hf, hd⟩ := hP hr
    simp only [same hf]
    exact ⟨lt hf, hd.of_extends ht ht' h⟩

/-- A larger table with results that are right. -/
theorem Reduced.sound (ht : t.Reduced) (ht' : t'.Reduced) (h : t.Extends t')
    (hN : t.Negates t'.negations) (hC : t.Joins t'.conjunctions) (hP : t.Projects t'.projections) :
    t'.Sound :=
  let moved := results_of_extends ht ht' h
  ⟨ht', moved.1 hN, moved.2.1 hC, moved.2.2 hP⟩

/-- What an operation on a table comes to: a sound table with the old diagrams in it, and a diagram of
    the function. -/
structure Computes (t : DiagramTable) (m : (Nat → Bool) → Bool) (r : Ref × DiagramTable) : Prop where
  sound : r.2.Sound
  grows : t.Extends r.2
  denotes : r.2.Denotes r.1 m

theorem Computes.of_eq {m' : (Nat → Bool) → Bool} {c : Ref × DiagramTable} (h : Computes t m c)
    (e : ∀ ρ, m ρ = m' ρ) : Computes t m' c :=
  ⟨h.sound, h.grows, h.denotes.lt_size, fun ρ => (h.denotes.value ρ).trans (e ρ)⟩

/-- A diagram that is there already. -/
theorem computes_self (ht : t.Sound) (hf : t.Denotes f m) : Computes t m (f, t) :=
  ⟨ht, .refl t, hf⟩

theorem Reduced.denotes_falsum (ht : t.Reduced) : t.Denotes falsum fun _ => false :=
  ⟨Nat.lt_of_lt_of_le (by decide) ht.constants, fun ρ => t.value_falsum ρ⟩

theorem Reduced.denotes_verum (ht : t.Reduced) : t.Denotes verum fun _ => true :=
  ⟨Nat.lt_of_lt_of_le (by decide) ht.constants, fun ρ => t.value_verum ρ⟩

/-- Diagrams keep their functions. -/
theorem Computes.keeps {m' : (Nat → Bool) → Bool} {c : Ref × DiagramTable} (h : Computes t m c)
    (ht : t.Sound) (hf : t.Denotes f m') : c.2.Denotes f m' :=
  hf.of_extends ht.toReduced h.sound.toReduced h.grows

theorem Computes.value_eq {c : Ref × DiagramTable} (h : Computes t m c) (ht : t.Sound)
    (hf : f < t.nodes.size) : (fun ρ => c.2.value ρ f) = fun ρ => t.value ρ f :=
  funext (value_of_extends ht.toReduced h.sound.toReduced h.grows hf)

theorem sound_empty : empty.Sound := by
  have none : ∀ {f n}, ¬ empty.Tests f n := fun h =>
    absurd h.lt_size (Nat.not_lt_of_le h.1)
  exact {
    constants := Nat.le_refl 2
    older := fun h => absurd h none
    differ := fun h => absurd h none
    ordered := fun h => absurd h none
    entered := fun {f n} => iff_of_false (by simp [empty]) none
    negates := fun h => by simp [empty] at h
    joins := fun h => by simp [empty] at h
    projects := fun h => by simp [empty] at h }

/-! ## 4. Entering nodes -/

/-- A node that is not there yet is entered. -/
theorem Reduced.push (ht : t.Reduced) {level : Nat} {low high : Ref} (hne : low ≠ high)
    (new : t.unique[(level, low, high)]? = none) (hlow : low < t.nodes.size)
    (hhigh : high < t.nodes.size) (rlow : Reads (level < ·) fun ρ => t.value ρ low)
    (rhigh : Reads (level < ·) fun ρ => t.value ρ high) :
    let t' := { t with
      nodes := t.nodes.push ⟨level, low, high⟩
      unique := t.unique.insert (level, low, high) t.nodes.size }
    t'.Reduced ∧ t.Extends t' ∧ t'.Tests t.nodes.size ⟨level, low, high⟩ := by
  intro t'
  have tests : ∀ {f n}, t'.Tests f n ↔
      t.Tests f n ∨ f = t.nodes.size ∧ n = ⟨level, low, high⟩ := by
    intro f n
    unfold Tests
    show 2 ≤ f ∧ (t.nodes.push ⟨level, low, high⟩)[f]? = some n ↔ _
    rw [Array.getElem?_push]
    split
    · next e =>
      subst e
      have := ht.constants
      simp [this, eq_comm]
    · next e => simp [e]
  -- children are old, so what they test is as before
  have old : ∀ {c m}, c < t.nodes.size → t'.Tests c m → t.Tests c m := fun hc hm =>
    (tests.1 hm).resolve_right fun h => absurd h.1 (Nat.ne_of_lt hc)
  have ordered : ∀ {f n}, t'.Tests f n → ∀ {c m}, c = n.low ∨ c = n.high → t'.Tests c m →
      n.level < m.level := by
    intro f n hn c m hc hm
    rcases tests.1 hn with hn | ⟨rfl, rfl⟩
    · exact ht.ordered hn hc (old (ht.reads_child hn hc).1 hm)
    · rcases hc with rfl | rfl
      · exact ht.le_level (old hlow hm) rlow
      · exact ht.le_level (old hhigh hm) rhigh
  refine ⟨{
    constants := Nat.le_trans ht.constants (by simp [t'])
    older := fun {f n} hn => ?_
    differ := fun {f n} hn => ?_
    ordered := ordered
    entered := fun {f n} => ?_ }, ⟨by simp [t'], fun hn => tests.2 (Or.inl hn)⟩,
    tests.2 (Or.inr ⟨rfl, rfl⟩)⟩
  · rcases tests.1 hn with hn | ⟨rfl, rfl⟩
    · exact ht.older hn
    · exact ⟨hlow, hhigh⟩
  · rcases tests.1 hn with hn | ⟨rfl, rfl⟩
    · exact ht.differ hn
    · exact hne
  · rw [tests, ← ht.entered]
    show (t.unique.insert (level, low, high) t.nodes.size)[(n.level, n.low, n.high)]? = some f ↔ _
    rw [Std.HashMap.getElem?_insert]
    split
    · next e =>
      have e : (level, low, high) = (n.level, n.low, n.high) := by simpa using e
      cases e
      simp [new, eq_comm]
    · next e =>
      have e : n ≠ ⟨level, low, high⟩ := by
        rintro rfl
        simp at e
      simp [e]

/-- **The node that tests a level** before the ones that its children read. -/
theorem computes_node (ht : t.Sound) {level : Nat} {low high : Ref} {mlow mhigh : (Nat → Bool) → Bool}
    (hlow : t.Denotes low mlow) (hhigh : t.Denotes high mhigh) (rlow : Reads (level < ·) mlow)
    (rhigh : Reads (level < ·) mhigh) :
    Computes t (fun ρ => if ρ level then mhigh ρ else mlow ρ) (t.node level low high) := by
  have elow : (fun ρ => t.value ρ low) = mlow := funext hlow.value
  have ehigh : (fun ρ => t.value ρ high) = mhigh := funext hhigh.value
  unfold node
  split
  · next e =>
    subst e
    refine computes_self ht ⟨hlow.lt_size, fun ρ => ?_⟩
    rw [hlow.value, ← elow, ← ehigh, ite_self]
  · next hne =>
    split
    · next f hf =>
      have hn : t.Tests f ⟨level, low, high⟩ := ht.entered.1 hf
      refine computes_self ht ⟨hn.lt_size, fun ρ => ?_⟩
      rw [ht.value_of_tests hn, hlow.value, hhigh.value]
    · next new =>
      obtain ⟨ht', hext, hn⟩ := ht.toReduced.push hne new hlow.lt_size hhigh.lt_size
        (elow ▸ rlow) (ehigh ▸ rhigh)
      refine ⟨ht.sound ht' hext ht.negates ht.joins ht.projects, hext, hn.lt_size, fun ρ => ?_⟩
      rw [ht'.value_of_tests hn, (hlow.of_extends ht.toReduced ht' hext).value,
        (hhigh.of_extends ht.toReduced ht' hext).value]

theorem computes_test (ht : t.Sound) (level : Nat) :
    Computes t (fun ρ => ρ level) (t.test level) := by
  have h : Computes t (fun ρ => if ρ level then true else false) (t.test level) :=
    computes_node ht ht.denotes_falsum ht.denotes_verum (fun _ _ _ => rfl) fun _ _ _ => rfl
  refine h.of_eq fun ρ => ?_
  cases ρ level <;> rfl

/-! ## 5. Remembering results -/

/-- Other results do not change the nodes. -/
theorem Reduced.of_nodes (ht : t.Reduced) (h : t'.nodes = t.nodes) (unique : t'.unique = t.unique) :
    t'.Reduced ∧ t.Extends t' := by
  have tests : ∀ {f n}, t'.Tests f n ↔ t.Tests f n := by
    intro f n
    rw [Tests, Tests, h]
  refine ⟨{
    constants := h ▸ ht.constants
    older := fun hn => ht.older (tests.1 hn)
    differ := fun hn => ht.differ (tests.1 hn)
    ordered := fun hn _ _ hc hm => ht.ordered (tests.1 hn) hc (tests.1 hm)
    entered := fun {f n} => by rw [tests, unique, ht.entered] }, Nat.le_of_eq ?_, tests.2⟩
  rw [h]

/-- More results that are right. -/
theorem Computes.remember (h : Computes t m (r, t')) {u : DiagramTable} (nodes : u.nodes = t'.nodes)
    (unique : u.unique = t'.unique) (hN : t'.Negates u.negations) (hC : t'.Joins u.conjunctions)
    (hP : t'.Projects u.projections) : Computes t m (r, u) := by
  obtain ⟨hu, hext⟩ := h.sound.toReduced.of_nodes nodes unique
  exact ⟨h.sound.sound hu hext hN hC hP, h.grows.trans hext,
    h.denotes.of_extends h.sound.toReduced hu hext⟩

theorem Computes.remember_negation (h : Computes t m (r, t')) (ht : t.Sound) (hf : f < t.nodes.size)
    (hm : ∀ ρ, m ρ = !t.value ρ f) :
    Computes t m (r, { t' with negations := t'.negations.insert f r }) := by
  refine h.remember rfl rfl (fun {f' r'} hr => ?_) h.sound.joins h.sound.projects
  rw [Std.HashMap.getElem?_insert] at hr
  split at hr
  · next e =>
    cases beq_iff_eq.1 e
    cases hr
    refine ⟨Nat.lt_of_lt_of_le hf h.grows.size, h.denotes.lt_size, fun ρ => ?_⟩
    rw [h.denotes.value, hm, congrFun (h.value_eq ht hf) ρ]
  · exact h.sound.negates hr

theorem Computes.remember_conjunction (h : Computes t m (r, t')) (ht : t.Sound)
    (hf : f < t.nodes.size) (hg : g < t.nodes.size) (hm : ∀ ρ, m ρ = (t.value ρ f && t.value ρ g)) :
    Computes t m (r, { t' with conjunctions := t'.conjunctions.insert (f, g) r }) := by
  refine h.remember rfl rfl h.sound.negates (fun {f' g' r'} hr => ?_) h.sound.projects
  rw [Std.HashMap.getElem?_insert] at hr
  split at hr
  · next e =>
    cases beq_iff_eq.1 e
    cases hr
    refine ⟨Nat.lt_of_lt_of_le hf h.grows.size, Nat.lt_of_lt_of_le hg h.grows.size,
      h.denotes.lt_size, fun ρ => ?_⟩
    rw [h.denotes.value, hm, congrFun (h.value_eq ht hf) ρ, congrFun (h.value_eq ht hg) ρ]
  · exact h.sound.joins hr

theorem Computes.remember_projection (h : Computes t m (r, t')) (ht : t.Sound)
    (hf : f < t.nodes.size) {l : Nat} (hm : ∀ ρ, m ρ = projected (fun ρ => t.value ρ f) l ρ) :
    Computes t m (r, { t' with projections := t'.projections.insert (f, l) r }) := by
  refine h.remember rfl rfl h.sound.negates h.sound.joins fun {f' r' l'} hr => ?_
  rw [Std.HashMap.getElem?_insert] at hr
  split at hr
  · next e =>
    cases beq_iff_eq.1 e
    cases hr
    refine ⟨Nat.lt_of_lt_of_le hf h.grows.size, h.denotes.lt_size, fun ρ => ?_⟩
    rw [h.denotes.value, hm, h.value_eq ht hf]
  · exact h.sound.projects hr

/-! ## 6. Operations -/

/-- One operation after another. -/
theorem Computes.andThen {c : Ref × DiagramTable} {m' : (Nat → Bool) → Bool}
    {c' : Ref × DiagramTable} (h : Computes t m c) (h' : Computes c.2 m' c') : Computes t m' c' :=
  ⟨h'.sound, h.grows.trans h'.grows, h'.denotes⟩

/-- The two sides of a function at a level, put together again by a node. -/
theorem Computes.node_of_sides {c c' : Ref × DiagramTable} {m' : (Nat → Bool) → Bool} {level : Nat}
    (h : Computes t m c) (h' : Computes c.2 m' c') (rlow : Reads (level < ·) m)
    (rhigh : Reads (level < ·) m') :
    Computes t (fun ρ => if ρ level then m' ρ else m ρ) (c'.2.node level c.1 c'.1) :=
  h.andThen (h'.andThen
    (computes_node h'.sound (h'.keeps h.sound h.denotes) h'.denotes rlow rhigh))

theorem not_of_tests (ht : t.Reduced) (hn : t.Tests f n) (new : t.negations[f]? = none) :
    t.not f =
      let low := t.not n.low
      let high := low.2.not n.high
      let r := high.2.node n.level low.1 high.1
      (r.1, { r.2 with negations := r.2.negations.insert f r.1 }) := by
  rw [not, if_neg hn.ne_falsum, if_neg hn.ne_verum, new, hn.2]
  exact dif_pos (ht.older hn)

theorem computes_not_value (ht : t.Sound) (hf : f < t.nodes.size) :
    Computes t (fun ρ => !t.value ρ f) (t.not f) := by
  induction f using Nat.strongRecOn generalizing t with
  | _ f ih =>
    obtain rfl | rfl | ⟨n, hn⟩ := cases_of_lt hf
    · rw [not, if_pos rfl]
      exact (computes_self ht ht.denotes_verum).of_eq (by simp)
    · rw [not, if_neg (by decide), if_pos rfl]
      exact (computes_self ht ht.denotes_falsum).of_eq (by simp)
    · cases hr : t.negations[f]? with
      | some r =>
        rw [not, if_neg hn.ne_falsum, if_neg hn.ne_verum, hr]
        exact computes_self ht (ht.negates hr).2
      | none =>
        obtain ⟨hlow, rlow⟩ := ht.reads_child hn (Or.inl rfl)
        obtain ⟨hhigh, rhigh⟩ := ht.reads_child hn (Or.inr rfl)
        have low := ih _ (ht.older hn).1 ht hlow
        have high := ih _ (ht.older hn).2 low.sound (Nat.lt_of_lt_of_le hhigh low.grows.size)
        simp only [congrFun (low.value_eq ht hhigh)] at high
        have node := low.node_of_sides high (fun ρ τ h => congrArg (!·) (rlow ρ τ h))
          fun ρ τ h => congrArg (!·) (rhigh ρ τ h)
        have negated : ∀ ρ, (if ρ n.level then !t.value ρ n.high else !t.value ρ n.low) =
            !t.value ρ f := by
          intro ρ
          rw [ht.value_of_tests hn]
          cases ρ n.level <;> rfl
        rw [not_of_tests ht.toReduced hn hr]
        exact (node.of_eq negated).remember_negation ht hf fun _ => rfl

theorem computes_not (ht : t.Sound) (hf : t.Denotes f m) :
    Computes t (fun ρ => !m ρ) (t.not f) :=
  (computes_not_value ht hf.lt_size).of_eq fun ρ => by rw [hf.value]

/-- The sides of a diagram at a level up to its own. -/
structure Sides (t : DiagramTable) (f : Ref) (level : Nat) (s : Ref × Ref) : Prop where
  low : s.1 < t.nodes.size ∧ Reads (level < ·) fun ρ => t.value ρ s.1
  high : s.2 < t.nodes.size ∧ Reads (level < ·) fun ρ => t.value ρ s.2
  value : ∀ ρ, t.value ρ f = if ρ level then t.value ρ s.2 else t.value ρ s.1
  le : s.1 ≤ f ∧ s.2 ≤ f

theorem sides_of_tests (ht : t.Reduced) (hn : t.Tests f n) {level : Nat} (hl : level ≤ n.level) :
    t.Sides f level (t.sides f level) ∧
      (level = n.level → (t.sides f level).1 < f ∧ (t.sides f level).2 < f) := by
  have older := ht.older hn
  rw [sides, hn.2]
  dsimp only
  split
  · next e =>
    subst e
    exact ⟨⟨ht.reads_child hn (Or.inl rfl), ht.reads_child hn (Or.inr rfl),
      fun ρ => ht.value_of_tests hn, Nat.le_of_lt older.1, Nat.le_of_lt older.2⟩, fun _ => older⟩
  · next ne =>
    have hlt : level < n.level := Nat.lt_of_le_of_ne hl (Ne.symm ne)
    have own : f < t.nodes.size ∧ Reads (level < ·) fun ρ => t.value ρ f :=
      ⟨hn.lt_size, ht.reads_of_le hn.lt_size fun h' => hn.unique h' ▸ hlt⟩
    exact ⟨⟨own, own, fun ρ => (ite_self _).symm, Nat.le_refl f, Nat.le_refl f⟩,
      fun e => absurd e.symm ne⟩

/-- The sides of a conjunction come from older pairs, as one of the two tests the level. -/
theorem sides_lt {n' : Node} (ht : t.Reduced) (hf : t.Tests f n) (hg : t.Tests g n') :
    let level := min n.level n'.level
    (t.sides f level).1 + (t.sides g level).1 < f + g ∧
      (t.sides f level).2 + (t.sides g level).2 < f + g := by
  have fl := sides_of_tests ht hf (Nat.min_le_left n.level n'.level)
  have gl := sides_of_tests ht hg (Nat.min_le_right n.level n'.level)
  rcases Nat.le_total n.level n'.level with hle | hle
  · have strict := fl.2 (Nat.min_eq_left hle)
    exact ⟨Nat.add_lt_add_of_lt_of_le strict.1 gl.1.le.1,
      Nat.add_lt_add_of_lt_of_le strict.2 gl.1.le.2⟩
  · have strict := gl.2 (Nat.min_eq_right hle)
    exact ⟨Nat.add_lt_add_of_le_of_lt fl.1.le.1 strict.1,
      Nat.add_lt_add_of_le_of_lt fl.1.le.2 strict.2⟩

theorem and_of_tests {n' : Node} (ht : t.Reduced) (hf : t.Tests f n) (hg : t.Tests g n')
    (hne : f ≠ g) (new : t.conjunctions[if f < g then (f, g) else (g, f)]? = none) :
    t.and f g =
      let level := min n.level n'.level
      let low := t.and (t.sides f level).1 (t.sides g level).1
      let high := low.2.and (t.sides f level).2 (t.sides g level).2
      let r := high.2.node level low.1 high.1
      (r.1, { r.2 with
        conjunctions := r.2.conjunctions.insert (if f < g then (f, g) else (g, f)) r.1 }) := by
  rw [and, if_neg (not_or.2 ⟨hf.ne_falsum, hg.ne_falsum⟩), if_neg (not_or.2 ⟨hf.ne_verum, hne⟩),
    if_neg hg.ne_verum]
  dsimp only
  rw [new, hf.2, hg.2]
  exact dif_pos (sides_lt ht hf hg)

theorem computes_and_value (ht : t.Sound) (hf : f < t.nodes.size) (hg : g < t.nodes.size) :
    Computes t (fun ρ => t.value ρ f && t.value ρ g) (t.and f g) := by
  induction hsum : f + g using Nat.strongRecOn generalizing t f g with
  | _ sum ih =>
    by_cases h0 : f = falsum ∨ g = falsum
    · rw [and, if_pos h0]
      refine (computes_self ht ht.denotes_falsum).of_eq fun ρ => ?_
      rcases h0 with rfl | rfl <;> simp
    by_cases h1 : f = verum ∨ f = g
    · rw [and, if_neg h0, if_pos h1]
      refine computes_self ht ⟨hg, fun ρ => ?_⟩
      rcases h1 with rfl | rfl <;> simp
    by_cases h2 : g = verum
    · rw [and, if_neg h0, if_neg h1, if_pos h2]
      refine computes_self ht ⟨hf, fun ρ => ?_⟩
      rw [h2, value_verum, Bool.and_true]
    rw [not_or] at h0 h1
    obtain ⟨n, hn⟩ := ((cases_of_lt hf).resolve_left h0.1).resolve_left h1.1
    obtain ⟨n', hn'⟩ := ((cases_of_lt hg).resolve_left h0.2).resolve_left h2
    cases hr : t.conjunctions[if f < g then (f, g) else (g, f)]? with
    | some r =>
      rw [and, if_neg (not_or.2 h0), if_neg (not_or.2 h1), if_neg h2]
      dsimp only
      rw [hr]
      split at hr
      · exact computes_self ht (ht.joins hr).2.2
      · exact (computes_self ht (ht.joins hr).2.2).of_eq fun ρ => Bool.and_comm _ _
    | none =>
      obtain ⟨fs, -⟩ := sides_of_tests ht.toReduced hn (Nat.min_le_left n.level n'.level)
      obtain ⟨gs, -⟩ := sides_of_tests ht.toReduced hn' (Nat.min_le_right n.level n'.level)
      have older := sides_lt ht.toReduced hn hn'
      have low := ih _ (hsum ▸ older.1) ht fs.low.1 gs.low.1 rfl
      have high := ih _ (hsum ▸ older.2) low.sound (Nat.lt_of_lt_of_le fs.high.1 low.grows.size)
        (Nat.lt_of_lt_of_le gs.high.1 low.grows.size) rfl
      simp only [congrFun (low.value_eq ht fs.high.1), congrFun (low.value_eq ht gs.high.1)] at high
      have node := low.node_of_sides high
        (fun ρ τ h => congrArg₂ (· && ·) (fs.low.2 ρ τ h) (gs.low.2 ρ τ h))
        fun ρ τ h => congrArg₂ (· && ·) (fs.high.2 ρ τ h) (gs.high.2 ρ τ h)
      have joined : ∀ ρ, (if ρ (min n.level n'.level) then
          t.value ρ (t.sides f (min n.level n'.level)).2 &&
            t.value ρ (t.sides g (min n.level n'.level)).2
          else t.value ρ (t.sides f (min n.level n'.level)).1 &&
            t.value ρ (t.sides g (min n.level n'.level)).1) = (t.value ρ f && t.value ρ g) := by
        intro ρ
        rw [fs.value, gs.value]
        cases ρ (min n.level n'.level) <;> rfl
      have whole := node.of_eq joined
      rw [and_of_tests ht.toReduced hn hn' h1.2 hr]
      split
      · exact whole.remember_conjunction ht hf hg fun _ => rfl
      · exact whole.remember_conjunction ht hg hf fun _ => Bool.and_comm _ _

theorem computes_and {m' : (Nat → Bool) → Bool} (ht : t.Sound) (hf : t.Denotes f m)
    (hg : t.Denotes g m') : Computes t (fun ρ => m ρ && m' ρ) (t.and f g) :=
  (computes_and_value ht hf.lt_size hg.lt_size).of_eq fun ρ => by rw [hf.value, hg.value]

theorem computes_or {m' : (Nat → Bool) → Bool} (ht : t.Sound) (hf : t.Denotes f m)
    (hg : t.Denotes g m') : Computes t (fun ρ => m ρ || m' ρ) (t.or f g) := by
  have nf := computes_not ht hf
  have ng := computes_not nf.sound (nf.keeps ht hg)
  have both := computes_and ng.sound (ng.keeps nf.sound nf.denotes) ng.denotes
  have denied := computes_not both.sound both.denotes
  refine (nf.andThen (ng.andThen (both.andThen denied))).of_eq fun ρ => ?_
  cases m ρ <;> cases m' ρ <;> rfl

/-! ## 7. Quantifiers -/

theorem reads_projected {N : Nat → Prop} (h : Reads N m) (l : Nat) : Reads N (projected m l) := by
  have update : ∀ v ρ τ, (∀ i, N i → ρ i = τ i) →
      m (Function.update ρ l v) = m (Function.update τ l v) := by
    intro v ρ τ e
    refine h _ _ fun i hi => ?_
    by_cases hl : i = l
    · subst hl
      simp
    · rw [Function.update_of_ne hl, Function.update_of_ne hl, e i hi]
  exact fun ρ τ e => congrArg₂ (· || ·) (update false ρ τ e) (update true ρ τ e)

/-- The projection of a test of an earlier level goes to both sides. -/
theorem projected_of_tests (ht : t.Reduced) (hn : t.Tests f n) {l : Nat} (hl : n.level ≠ l)
    (ρ : Nat → Bool) : projected (fun ρ => t.value ρ f) l ρ =
      if ρ n.level then projected (fun ρ => t.value ρ n.high) l ρ
      else projected (fun ρ => t.value ρ n.low) l ρ := by
  simp only [projected, ht.value_of_tests hn, Function.update_of_ne hl]
  cases ρ n.level <;> rfl

theorem exist_of_tests (ht : t.Reduced) (hn : t.Tests f n) (l : Nat) :
    t.exist f l = if l < n.level then (f, t) else
      match t.projections[(f, l)]? with
      | some r => (r, t)
      | none =>
        let low := t.exist n.low l
        let high := low.2.exist n.high l
        let r := if n.level = l then t.or n.low n.high else high.2.node n.level low.1 high.1
        (r.1, { r.2 with projections := r.2.projections.insert (f, l) r.1 }) := by
  have nonconstant : ¬ isConstant f = true := by
    simp [isConstant, hn.ne_falsum, hn.ne_verum]
  rw [exist, if_neg nonconstant, hn.2]
  dsimp only
  rw [dif_pos (ht.older hn)]
  refine if_congr Iff.rfl rfl ?_
  cases t.projections[(f, l)]? with
  | some r => rfl
  | none => by_cases he : n.level = l <;> simp [he]

theorem computes_exist_value (ht : t.Sound) (hf : f < t.nodes.size) (l : Nat) :
    Computes t (projected (fun ρ => t.value ρ f) l) (t.exist f l) := by
  induction f using Nat.strongRecOn generalizing t with
  | _ f ih =>
    obtain rfl | rfl | ⟨n, hn⟩ := cases_of_lt hf
    · rw [exist, if_pos (by decide)]
      exact (computes_self ht ht.denotes_falsum).of_eq (by simp [projected])
    · rw [exist, if_pos (by decide)]
      exact (computes_self ht ht.denotes_verum).of_eq (by simp [projected])
    rw [exist_of_tests ht.toReduced hn]
    by_cases hl : l < n.level
    · rw [if_pos hl]
      -- the level comes before all that the diagram tests
      have skip : ∀ v ρ, t.value (Function.update ρ l v) f = t.value ρ f := fun v ρ =>
        ht.reads_of_le (l := n.level) hf (fun h' => Nat.le_of_eq (congrArg Node.level (hn.unique h')))
          _ _ fun i hi => Function.update_of_ne (Nat.ne_of_gt (Nat.lt_of_lt_of_le hl hi)) _ _
      exact computes_self ht ⟨hf, fun ρ => by rw [projected, skip, skip, Bool.or_self]⟩
    rw [if_neg hl]
    cases hr : t.projections[(f, l)]? with
    | some r => exact computes_self ht (ht.projects hr).2
    | none =>
      refine Computes.remember_projection ?_ ht hf fun _ => rfl
      obtain ⟨hlow, rlow⟩ := ht.reads_child hn (Or.inl rfl)
      obtain ⟨hhigh, rhigh⟩ := ht.reads_child hn (Or.inr rfl)
      by_cases he : n.level = l
      · rw [if_pos he]
        refine (computes_or ht ⟨hlow, fun _ => rfl⟩ ⟨hhigh, fun _ => rfl⟩).of_eq fun ρ => ?_
        rw [projected, ← he, ht.value_update_level hn, ht.value_update_level hn]
        rfl
      · rw [if_neg he]
        have low := ih _ (ht.older hn).1 ht hlow
        have high := ih _ (ht.older hn).2 low.sound (Nat.lt_of_lt_of_le hhigh low.grows.size)
        rw [low.value_eq ht hhigh] at high
        have node := low.node_of_sides high (reads_projected rlow l) (reads_projected rhigh l)
        exact node.of_eq fun ρ => (projected_of_tests ht.toReduced hn he ρ).symm

theorem computes_exist (ht : t.Sound) (hf : t.Denotes f m) (l : Nat) :
    Computes t (projected m l) (t.exist f l) := by
  have e : (fun ρ => t.value ρ f) = m := funext hf.value
  exact e ▸ computes_exist_value ht hf.lt_size l

theorem computes_all (ht : t.Sound) (hf : t.Denotes f m) (l : Nat) :
    Computes t (fun ρ => m (Function.update ρ l false) && m (Function.update ρ l true))
      (t.all f l) := by
  have nf := computes_not ht hf
  have side := computes_exist nf.sound nf.denotes l
  have denied := computes_not side.sound side.denotes
  refine (nf.andThen (side.andThen denied)).of_eq fun ρ => ?_
  rw [projected]
  cases m (Function.update ρ l false) <;> cases m (Function.update ρ l true) <;> rfl

/-- A constant function has a constant diagram. -/
theorem verdict_of_denotes (ht : t.Reduced) (hf : t.Denotes f m) :
    (f = verum ↔ ∀ ρ, m ρ = true) ∧ (f = falsum ↔ ∀ ρ, m ρ = false) := by
  have verum := ht.denotes_verum
  have falsum := ht.denotes_falsum
  refine ⟨⟨?_, fun h => ?_⟩, ⟨?_, fun h => ?_⟩⟩
  · rintro rfl ρ
    rw [← hf.value, verum.value]
  · exact ht.eq_of_value hf.lt_size verum.lt_size fun ρ => by rw [hf.value, verum.value, h]
  · rintro rfl ρ
    rw [← hf.value, falsum.value]
  · exact ht.eq_of_value hf.lt_size falsum.lt_size fun ρ => by rw [hf.value, falsum.value, h]

end CtlTableau.DiagramTable
