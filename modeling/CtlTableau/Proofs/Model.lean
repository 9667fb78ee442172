import CtlTableau.Proofs.Branching
import CtlTableau.Proofs.Simulation
import Mathlib.Data.Prod.Lex
import Mathlib.Order.Lattice.Nat

/-!
# A model of what is left

From a set `X` of tableau states that is not pruned any more a Kripke structure is made in which every
member satisfies what it should. The states themselves with all transitions between them are no
model: a path may put off an "until" forever. So a state is taken together with a number that says
which "until" is due, where all of them take turns.

* If an "until" on all paths is due and not yet met, only transitions to states are allowed at which
  it is met sooner. They are enough for all that the state promises.
* Otherwise any transition is allowed, and the next "until" is due; if an "until" on some path is
  due, it may stay due as long as it is met sooner.

An "until" that a state satisfies is passed on to successors until its turn comes, and then it is met,
since it cannot be sooner and sooner forever (`position_induction`). This gives the truth of all formulas
(`holds_iff_satisfies`), and with it that no unsatisfiable formula is reported satisfiable
(`exists_model_of_satisfiable`).
-/

namespace CtlTableau.Tableau

variable {T : Tableau} {X : Set (State T.elementary)}

/-! ## 1. Ranks -/

section Rank

variable {S : Type} [Fintype S] {F : Set S →o Set S} {s : S} {n : Nat}

/-- The first stage of the growing set that holds the state. -/
noncomputable def rank (F : Set S →o Set S) (s : S) : Nat := sInf {n | s ∈ F^[n] ∅}

omit [Fintype S] in
theorem rank_le (h : s ∈ F^[n] ∅) : rank F s ≤ n := Nat.sInf_le h

/-- A state of the least fixpoint comes of states with a smaller rank. -/
theorem exists_rank_eq_succ (h : s ∈ F.lfp) : ∃ n, rank F s = n + 1 ∧ s ∈ F (F^[n] ∅) := by
  have hmem : s ∈ F^[rank F s] ∅ := Nat.sInf_mem (exists_mem_iterate h)
  cases hr : rank F s with
  | zero =>
    rw [hr] at hmem
    exact absurd hmem (Set.notMem_empty s)
  | succ n =>
    rw [hr, Function.iterate_succ_apply'] at hmem
    exact ⟨n, rfl, hmem⟩

end Rank

/-! ## 2. Taking turns -/

/-- An "until" that has to be met, on a path or in a tree. -/
inductive Eventuality where
  | path (p q : Formula)
  | tree (p q : Formula)

/-- One step more of the "until" through `X`. -/
def Eventuality.step (T : Tableau) (X : Set (State T.elementary)) :
    Eventuality → Set (State T.elementary) →o Set (State T.elementary)
  | .path p q => T.pathStep X p q
  | .tree p q => T.treeStep X p q

/-- All that may have to be met. -/
def eventualities (T : Tableau) : List Eventuality :=
  T.untils.map (fun (p, q) => .path p q) ++
    T.releases.map fun (p, q) => .tree p.negate q.negate

/-- The eventuality whose turn it is. -/
def due (T : Tableau) (i : Nat) : Option Eventuality :=
  T.eventualities[i % T.eventualities.length]?

/-- How many turns there are before that of the eventuality. -/
noncomputable def wait (T : Tableau) (ev : Eventuality) (i : Nat) : Nat :=
  sInf {d | T.due (i + d) = some ev}

/-- Everyone has a turn. -/
theorem exists_due {ev : Eventuality} (h : ev ∈ T.eventualities) (i : Nat) :
    ∃ d, T.due (i + d) = some ev := by
  obtain ⟨k, hk, e⟩ := List.getElem_of_mem h
  refine ⟨k + i * (T.eventualities.length - 1), ?_⟩
  have hmod : (i + (k + i * (T.eventualities.length - 1))) % T.eventualities.length = k := by
    obtain ⟨n, hn⟩ : ∃ n, T.eventualities.length = n + 1 :=
      ⟨T.eventualities.length - 1, by omega⟩
    rw [hn, Nat.add_sub_cancel, Nat.add_left_comm, Nat.add_comm i, ← Nat.mul_succ,
      Nat.add_mul_mod_self_right]
    exact Nat.mod_eq_of_lt (by omega)
  rw [due, hmod, List.getElem?_eq_getElem hk, e]

/-- The turn comes nearer with every turn of another. -/
theorem wait_succ_lt {ev : Eventuality} (h : ev ∈ T.eventualities) {i : Nat}
    (hi : T.due i ≠ some ev) : T.wait ev (i + 1) < T.wait ev i := by
  have hmem : T.due (i + T.wait ev i) = some ev := Nat.sInf_mem (exists_due h i)
  cases hw : T.wait ev i with
  | zero =>
    rw [hw] at hmem
    exact absurd hmem hi
  | succ d =>
    rw [hw] at hmem
    have hle : T.wait ev (i + 1) ≤ d := by
      refine Nat.sInf_le ?_
      show T.due (i + 1 + d) = some ev
      rwa [Nat.add_right_comm]
    exact Nat.lt_succ_of_le hle

/-! ## 3. The model -/

/-- An "until" on all paths is due and can be met, but is not yet. -/
def Pending (T : Tableau) (X : Set (State T.elementary)) (i : Nat) (s : State T.elementary) :
    Prop :=
  ∃ p q, T.due i = some (.tree p q) ∧ s ∈ (T.treeStep X p q).lfp ∧ ¬ T.Satisfies s q

/-- What is due will be met sooner at the second state. -/
def Sooner (T : Tableau) (X : Set (State T.elementary)) (i : Nat) (s t : State T.elementary) :
    Prop :=
  ∃ ev, T.due i = some ev ∧ rank (ev.step T X) t < rank (ev.step T X) s

/-- A state of the stage before the one that a state joins is sooner. -/
theorem sooner_of_mem {ev : Eventuality} {i n : Nat} {s t : State T.elementary}
    (hi : T.due i = some ev) (hn : rank (ev.step T X) s = n + 1)
    (ht : t ∈ (ev.step T X)^[n] ∅) : T.Sooner X i s t := by
  refine ⟨ev, hi, ?_⟩
  rw [hn]
  exact Nat.lt_succ_of_le (rank_le ht)

/-- A member of the set, with the number of the turn. -/
abbrev Place (T : Tableau) (X : Set (State T.elementary)) := {s // s ∈ X} × Nat

/-- The transitions of the model. -/
def Moves (m m' : Place T X) : Prop :=
  T.Follows m.1 m'.1 ∧
    (m'.2 = m.2 ∧ T.Sooner X m.2 m.1 m'.1 ∨ m'.2 = m.2 + 1 ∧ ¬ T.Pending X m.2 m.1)

/-- What survives has a move, and one for each of its promises. -/
theorem exists_moves (hX : X ⊆ T.prune X) (m : Place T X) :
    (∃ m', Moves m m') ∧ ∀ g, .ex g ∈ T.elementary → T.Satisfies m.1 (.ex g) →
      ∃ m', Moves m m' ∧ T.Satisfies m'.1 g := by
  obtain ⟨⟨s, hs⟩, i⟩ := m
  by_cases hp : T.Pending X i s
  · obtain ⟨p, q, hi, hlfp, hq⟩ := hp
    obtain ⟨n, hn, hstep⟩ := exists_rank_eq_succ hlfp
    obtain ⟨-, ⟨t, ht, hst, htn⟩, hall⟩ := hstep.resolve_left hq
    refine ⟨⟨(⟨t, ht⟩, i), hst, Or.inl ⟨rfl, sooner_of_mem hi hn htn⟩⟩, fun g hg hsg => ?_⟩
    obtain ⟨t, ht, hst, htn, htg⟩ := hall g hg hsg
    exact ⟨(⟨t, ht⟩, i), ⟨hst, Or.inl ⟨rfl, sooner_of_mem hi hn htn⟩⟩, htg⟩
  · obtain ⟨t, ht, hst⟩ := (hX hs).succeeded
    refine ⟨⟨(⟨t, ht⟩, i + 1), hst, Or.inr ⟨rfl, hp⟩⟩, fun g hg hsg => ?_⟩
    obtain ⟨t, ht, hst, htg⟩ := (hX hs).promised g hg hsg
    exact ⟨(⟨t, ht⟩, i + 1), ⟨hst, Or.inr ⟨rfl, hp⟩⟩, htg⟩

/-- The Kripke structure that a set makes which is not pruned any more. -/
def model (T : Tableau) (X : Set (State T.elementary)) (hX : X ⊆ T.prune X) : Kripke.{0} where
  State := Place T X
  next := Moves
  total m := (exists_moves hX m).1
  label m x := State.IsTrue m.1.1 (.atom x)

/-! ## 4. What is due is met -/

/-- Where a place stands on the way to what is to be met: the turns before, then the rank in what is
    due now. -/
noncomputable def position (ev : Eventuality) (m : Place T X) : Nat ×ₗ Nat :=
  toLex (T.wait ev m.2, match T.due m.2 with
    | some ev' => rank (ev'.step T X) m.1.1
    | none => 0)

/-- What is met sooner is nearer. -/
theorem position_lt_of_sooner {ev : Eventuality} {m m' : Place T X} (hi : m'.2 = m.2)
    (h : T.Sooner X m.2 m.1 m'.1) : position ev m' < position ev m := by
  obtain ⟨ev', hdue, hlt⟩ := h
  rw [position, position, Prod.Lex.toLex_lt_toLex]
  refine Or.inr ⟨congrArg (T.wait ev) hi, ?_⟩
  rw [hi, hdue]
  exact hlt

/-- As long as something else is due every move is nearer. -/
theorem Moves.position_lt {ev : Eventuality} (hev : ev ∈ T.eventualities) {m m' : Place T X}
    (h : Moves m m') (hi : T.due m.2 ≠ some ev) : position ev m' < position ev m := by
  rcases h.2 with ⟨hi', sooner⟩ | ⟨hi', -⟩
  · exact position_lt_of_sooner hi' sooner
  · rw [position, position, Prod.Lex.toLex_lt_toLex, hi']
    exact Or.inl (wait_succ_lt hev hi)

/-- What follows from being true of all nearer places is true everywhere. -/
theorem position_induction (ev : Eventuality) {P : Place T X → Prop}
    (h : ∀ m, (∀ m', position ev m' < position ev m → P m') → P m) (m : Place T X) : P m :=
  (InvImage.wf (position ev) wellFounded_lt).induction m h

/-! ## 5. The truth in the model -/

variable {p q g : Formula}

/-- The states on the way of a path "until" satisfy it. -/
theorem satisfies_of_mem_pathStep (h : T.Decides (.eu p q)) {s : State T.elementary}
    (hs : s ∈ (T.pathStep X p q).lfp) : T.Satisfies s (.eu p q) := by
  refine (T.pathStep X p q).lfp_le (a := {s | T.Satisfies s (.eu p q)}) ?_ hs
  intro s h
  rcases h with hq | ⟨hp, t, -, hst, ht⟩
  · exact (satisfies_eu_iff h).2 (Or.inl hq)
  · exact (satisfies_eu_iff h).2 (Or.inr ⟨hp, hst.satisfies_next h.eu.1 ht⟩)

/-- An "until" on some path that is not met now has a nearer successor that satisfies it. -/
theorem exists_nearer (hX : X ⊆ T.prune X) (h : T.Decides (.eu p q)) {m : Place T X}
    (hm : T.Satisfies m.1 (.eu p q)) (hq : ¬ T.Satisfies m.1 q) :
    ∃ m', Moves m m' ∧ position (.path p q) m' < position (.path p q) m ∧
      T.Satisfies m'.1 (.eu p q) := by
  obtain ⟨hp, hnext⟩ := ((satisfies_eu_iff h).1 hm).resolve_left hq
  by_cases hi : T.due m.2 = some (.path p q)
  · have hlfp := (hX m.1.2).met p q h.eu.1 hnext hp
    obtain ⟨n, hn, hstep⟩ := exists_rank_eq_succ hlfp
    obtain ⟨-, t, ht, hst, htn⟩ := hstep.resolve_left hq
    have sooner : T.Sooner X m.2 m.1 t := sooner_of_mem hi hn htn
    refine ⟨(⟨t, ht⟩, m.2), ⟨hst, Or.inl ⟨rfl, sooner⟩⟩, position_lt_of_sooner rfl sooner, ?_⟩
    exact satisfies_of_mem_pathStep h (iterate_subset_lfp _ n htn)
  · obtain ⟨m', hmove, hm'⟩ := (exists_moves hX m).2 _ h.eu.1 hnext
    refine ⟨m', hmove, hmove.position_lt ?_ hi, hm'⟩
    exact List.mem_append_left _ (List.mem_map.2 ⟨(p, q), mem_untils.2 h.eu.1, rfl⟩)

/-- An "until" on all paths that is not met now is satisfied by all successors, and nearer there. -/
theorem Moves.nearer (hX : X ⊆ T.prune X) (h : T.Decides (.au p q)) {m m' : Place T X}
    (hmove : Moves m m') (hm : T.Satisfies m.1 (.au p q)) (hq : ¬ T.Satisfies m.1 q) :
    position (.tree p q) m' < position (.tree p q) m ∧ T.Satisfies m'.1 (.au p q) := by
  obtain ⟨hex, dp, dq⟩ := h.au
  obtain ⟨hp, hnext⟩ := ((satisfies_au_iff h).1 hm).resolve_left hq
  have hm' : T.Satisfies m'.1 (.au p q) := by
    by_contra hne
    exact hnext (hmove.1.satisfies_next hex ((satisfies_negate_iff h).2 hne))
  refine ⟨?_, hm'⟩
  by_cases hi : T.due m.2 = some (.tree p q)
  · have hp' : ¬ T.Satisfies m.1 p.negate := fun hn => (satisfies_negate_iff dp).1 hn hp
    have hlfp := (hX m.1.2).everywhere _ _ hex hnext hp'
    rw [dp.normal.negate_negate, dq.normal.negate_negate] at hlfp
    rcases hmove.2 with ⟨hi', sooner⟩ | ⟨-, free⟩
    · exact position_lt_of_sooner hi' sooner
    · exact absurd ⟨p, q, hi, hlfp, hq⟩ free
  · refine hmove.position_lt ?_ hi
    refine List.mem_append_right _ (List.mem_map.2 ⟨_, mem_releases.2 hex, ?_⟩)
    show Eventuality.tree p.negate.negate q.negate.negate = _
    rw [dp.normal.negate_negate, dq.normal.negate_negate]

variable {hX : X ⊆ T.prune X}

theorem holds_eu_iff (h : T.Decides (.eu p q))
    (hp : ∀ m, (T.model X hX).Holds p m ↔ T.Satisfies m.1 p)
    (hq : ∀ m, (T.model X hX).Holds q m ↔ T.Satisfies m.1 q) (m : Place T X) :
    (T.model X hX).Holds (.eu p q) m ↔ T.Satisfies m.1 (.eu p q) := by
  constructor
  · refine Kripke.someUntil_least (K := T.model X hX)
      (Z := fun m : Place T X => T.Satisfies m.1 (.eu p q))
      (fun m hqm => (satisfies_eu_iff h).2 (Or.inl ((hq m).1 hqm))) fun m m' hpm hmove hm' => ?_
    exact (satisfies_eu_iff h).2 (Or.inr ⟨(hp m).1 hpm, hmove.1.satisfies_next h.eu.1 hm'⟩)
  · refine position_induction (.path p q)
      (P := fun m => T.Satisfies m.1 (.eu p q) → (T.model X hX).Holds (.eu p q) m)
      (fun m ih hm => ?_) m
    refine Kripke.someUntil_iff.2 ?_
    by_cases hqm : T.Satisfies m.1 q
    · exact Or.inl ((hq m).2 hqm)
    · have hpm := (((satisfies_eu_iff h).1 hm).resolve_left hqm).1
      obtain ⟨m', hmove, hlt, hm'⟩ := exists_nearer hX h hm hqm
      exact Or.inr ⟨(hp m).2 hpm, m', hmove, ih m' hlt hm'⟩

theorem holds_au_iff (h : T.Decides (.au p q))
    (hp : ∀ m, (T.model X hX).Holds p m ↔ T.Satisfies m.1 p)
    (hq : ∀ m, (T.model X hX).Holds q m ↔ T.Satisfies m.1 q) (m : Place T X) :
    (T.model X hX).Holds (.au p q) m ↔ T.Satisfies m.1 (.au p q) := by
  constructor
  · refine Kripke.everyUntil_least (K := T.model X hX)
      (Z := fun m : Place T X => T.Satisfies m.1 (.au p q))
      (fun m hqm => (satisfies_au_iff h).2 (Or.inl ((hq m).1 hqm))) fun m hpm hall => ?_
    refine (satisfies_au_iff h).2 (Or.inr ⟨(hp m).1 hpm, fun hnext => ?_⟩)
    -- a promised "release" would be met at a successor, where the "until" is satisfied
    obtain ⟨m', hmove, hm'⟩ := (exists_moves hX m).2 _ h.au.1 hnext
    exact (satisfies_negate_iff h).1 hm' (hall m' hmove)
  · refine position_induction (.tree p q)
      (P := fun m => T.Satisfies m.1 (.au p q) → (T.model X hX).Holds (.au p q) m)
      (fun m ih hm => ?_) m
    refine Kripke.everyUntil_iff.2 ?_
    by_cases hqm : T.Satisfies m.1 q
    · exact Or.inl ((hq m).2 hqm)
    · have hpm := (((satisfies_au_iff h).1 hm).resolve_left hqm).1
      refine Or.inr ⟨(hp m).2 hpm, fun m' hmove => ?_⟩
      obtain ⟨hlt, hm'⟩ := hmove.nearer hX h hm hqm
      exact ih m' hlt hm'

theorem holds_ex_iff (h : T.Decides (.ex p))
    (hp : ∀ m, (T.model X hX).Holds p m ↔ T.Satisfies m.1 p) (m : Place T X) :
    (T.model X hX).Holds (.ex p) m ↔ T.Satisfies m.1 (.ex p) := by
  constructor
  · intro h
    obtain ⟨m', hmove, hm'⟩ := h
    exact hmove.1.satisfies_next h.within ((hp m').1 hm')
  · intro hm
    obtain ⟨m', hmove, hm'⟩ := (exists_moves hX m).2 p h.within hm
    exact ⟨m', hmove, (hp m').2 hm'⟩

/-- What is right for a formula is right for its negation. -/
theorem holds_negate_iff (h : T.Decides g)
    (hg : ∀ m, (T.model X hX).Holds g m ↔ T.Satisfies m.1 g) (m : Place T X) :
    (T.model X hX).Holds g.negate m ↔ T.Satisfies m.1 g.negate := by
  have h1 := Kripke.holds_negate_iff (K := T.model X hX) h.normal.isTemporal m
  exact h1.trans ((not_congr (hg m)).trans (satisfies_negate_iff h).symm)

/-- **A formula is true at a place of the model if and only if the state satisfies it.** -/
theorem holds_iff_satisfies (hT : T.Saturated) (h : T.Decides g) (m : Place T X) :
    (T.model X hX).Holds g m ↔ T.Satisfies m.1 g := by
  have hatom : ∀ x, T.Decides (.atom x) → ∀ m : Place T X,
      (T.model X hX).Holds (.atom x) m ↔ T.Satisfies m.1 (.atom x) := by
    intro x hx m
    rw [satisfies_iff hx]
    exact Iff.rfl
  obtain ⟨hn, hw⟩ := h
  induction hn generalizing m with
  | atom x => exact hatom x ⟨.atom x, hw⟩ m
  | not x =>
    have hx : T.Decides (.atom x) := ⟨.atom x, hw.2⟩
    exact holds_negate_iff hx (hatom x hx) m
  | @ex p np ih =>
    have hp := hT.keeps p hw
    exact holds_ex_iff ⟨.ex np, hw⟩ (fun m => ih m hp.within) m
  | @ax p np ih =>
    -- "next" on all paths is the negation of "next" on some path
    have hp : T.Decides p := np.negate_negate ▸ (hT.keeps p.negate hw).negate
    have hex : T.Decides (.ex p.negate) := hT.next hw
    have h := holds_negate_iff hex
      (holds_ex_iff hex (holds_negate_iff hp fun m => ih m hp.within)) m
    rwa [Formula.negate_ex, np.negate_negate] at h
  | @and p q np nq ihp ihq =>
    have h : T.Satisfies m.1 (.and p q) ↔ T.Satisfies m.1 p ∧ T.Satisfies m.1 q := by
      rw [satisfies_iff ⟨.and np nq, hw⟩, satisfies_iff ⟨np, hw.1⟩, satisfies_iff ⟨nq, hw.2⟩]
      exact Iff.rfl
    exact (and_congr (ihp m hw.1) (ihq m hw.2)).trans h.symm
  | @or p q np nq ihp ihq =>
    have h : T.Satisfies m.1 (.or p q) ↔ T.Satisfies m.1 p ∨ T.Satisfies m.1 q := by
      rw [satisfies_iff ⟨.or np nq, hw⟩, satisfies_iff ⟨np, hw.1⟩, satisfies_iff ⟨nq, hw.2⟩]
      exact Iff.rfl
    exact (or_congr (ihp m hw.1) (ihq m hw.2)).trans h.symm
  | eu np nq ihp ihq =>
    exact holds_eu_iff ⟨.eu np nq, hw⟩ (fun m => ihp m hw.2.1) (fun m => ihq m hw.2.2) m
  | au np nq ihp ihq =>
    exact holds_au_iff ⟨.au np nq, hw⟩ (fun m => ihp m hw.2.1) (fun m => ihq m hw.2.2) m
  | @er p q np nq ihp ihq =>
    have hau : T.Decides (.au p.negate q.negate) := Decides.negate ⟨.er np nq, hw⟩
    have h := holds_negate_iff hau (holds_au_iff hau
      (holds_negate_iff ⟨np, hw.2.1⟩ fun m => ihp m hw.2.1)
      (holds_negate_iff ⟨nq, hw.2.2⟩ fun m => ihq m hw.2.2)) m
    rwa [Formula.negate_au, np.negate_negate, nq.negate_negate] at h
  | @ar p q np nq ihp ihq =>
    have heu : T.Decides (.eu p.negate q.negate) := Decides.negate ⟨.ar np nq, hw⟩
    have h := holds_negate_iff heu (holds_eu_iff heu
      (holds_negate_iff ⟨np, hw.2.1⟩ fun m => ihp m hw.2.1)
      (holds_negate_iff ⟨nq, hw.2.2⟩ fun m => ihq m hw.2.2)) m
    rwa [Formula.negate_eu, np.negate_negate, nq.negate_negate] at h

/-! ## 6. Verdicts -/

/-- **A formula that is reported satisfiable has a model.** If a check with an engine that tells the
    truth reports that a formula is satisfiable, then the formula is true at a state of some Kripke
    structure. -/
theorem exists_model_of_satisfiable {σ : Type} {f : Formula} (hf : f.isTemporal = true)
    (hT : ofFormula f = .ok T) {engine : Engine σ} (he : engine.Sound) {rounds : Nat}
    {s s' : Session σ} {report : Report}
    (hrun : (T.checkWithin engine rounds).run.run s = (.ok report, s'))
    (hsat : report.satisfiable = true) : ∃ (K : Kripke.{0}) (m : K.State), K.Holds f m := by
  obtain ⟨hn, hT⟩ := saturated_of_ofFormula hf hT
  have r := reports_of_ok he hT hrun
  obtain ⟨t, ht, htn⟩ := r.satisfiable_iff.1 hsat
  have hX : T.prune^[report.iterations] Set.univ ⊆ T.prune (T.prune^[report.iterations] Set.univ) := by
    obtain ⟨⟨hk, hfix⟩, -⟩ := r.first
    obtain ⟨k, e⟩ : ∃ k, report.iterations = k + 1 := ⟨report.iterations - 1, by omega⟩
    rw [e, Nat.add_sub_cancel, Function.iterate_succ_apply'] at hfix
    rw [e, Function.iterate_succ_apply', hfix, hfix]
  have hm : (T.model _ hX).Holds T.normalized (⟨t, ht⟩, 0) :=
    (holds_iff_satisfies hT hT.decides _).2 htn
  rw [hn] at hm
  exact ⟨_, _, (Kripke.holds_normalize_iff hf _).1 hm⟩

/-- The formula of the instance is reported satisfiable after one round and five questions, so it has
    a model. -/
theorem exists_model_atLast :
    ((atLastTableau.check Engine.oracle).run.run { engine := () }).1 = .ok ⟨true, 1, 5, .zero⟩ ∧
      ∃ (K : Kripke.{0}) (m : K.State), K.Holds atLast m := by
  have hrun : ((atLastTableau.check Engine.oracle).run.run { engine := () }).1 =
      .ok ⟨true, 1, 5, .zero⟩ := by decide +kernel
  refine ⟨hrun, ?_⟩
  rcases h : (atLastTableau.check Engine.oracle).run.run { engine := () } with ⟨r, s'⟩
  rw [h] at hrun
  have hr : r = .ok ⟨true, 1, 5, .zero⟩ := hrun
  rw [hr] at h
  exact exists_model_of_satisfiable (f := atLast) rfl ofFormula_atLast
    Engine.complete_oracle.toSound h rfl

end CtlTableau.Tableau
