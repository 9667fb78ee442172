import CtlTableau.Proofs.Successor
import CtlTableau.Proofs.Transcript

/-!
# What a round does

Every function of a run, from the making of a successor to a whole round, does to formulas what the
algorithm on sets of states does to the sets that they stand for: if the formulas that it is given
stand for sets, then so does its result. This is shown of the dialogues, for all engines at once. With
answers that may be false, the formulas still speak of the states they should speak of, and no step
finds a fault; with true answers (`truth`) it is known for which sets they stand.

The loops that look for "until" promises stop at a least fixpoint (`ensures_grow`), within as many
rounds as there are states and one more; a round prunes its set (`ensures_round`). What this means for
runs with an engine that tells the truth is in the last section.
-/

namespace CtlTableau.Tableau

open Run SymbolicState

variable {α β : Type} {T : Tableau} {truth sure : Prop} {c c' : Stage} {k n : Nat}
  {f g states : Formula} {X Y : Set (State T.elementary)}

/-! ## 1. Formulas about the current state -/

/-- The truth of a formula that depends on the current state is the truth in the state that the
    valuation reads as. -/
theorem eval_write_read (free : ∀ x ∈ f.freeNames, x = Formula.trueName ∨ x ∈ T.current.names)
    (ρ σ : String → Bool) : f.eval (T.current.write σ (T.current.read ρ)) = f.eval ρ := by
  refine Formula.eval_congr fun x hx hne => ?_
  obtain ⟨e, he, rfl⟩ := exists_nameFor ((free x hx).resolve_left hne)
  exact congrFun (T.current.read_write σ (T.current.read ρ)) ⟨e, he⟩

/-- A formula about the current state stands for some set. -/
theorem describes_of_speaks (h : f.Speaks (· ∈ T.current.names) k) : T.current.Describes k f
    {s | f.eval (T.current.write (fun _ => false) s) = true} := by
  refine ⟨h, fun ρ => ?_⟩
  rw [Set.mem_ofPred_eq, eval_write_read h.free]

/-- The formula is about the current state, and stands for the set if `truth` holds. -/
structure Stands (T : Tableau) (truth : Prop) (k : Nat) (f : Formula)
    (X : Set (State T.elementary)) : Prop where
  speaks : f.Speaks (· ∈ T.current.names) k
  describes : truth → T.current.Describes k f X

theorem stands_of_describes (h : T.current.Describes k f Y) (e : truth → Y = X) :
    Stands T truth k f X :=
  ⟨h.speaks, fun ht => e ht ▸ h⟩

theorem Stands.exists_describes (h : Stands T truth k f X) :
    ∃ Z, T.current.Describes k f Z ∧ (truth → Z = X) := by
  by_cases ht : truth
  · exact ⟨X, h.describes ht, fun _ => rfl⟩
  · exact ⟨_, describes_of_speaks h.speaks, fun h => absurd h ht⟩

theorem Stands.later {k' : Nat} (h : Stands T truth k f X) (hk : k ≤ k') :
    Stands T truth k' f X :=
  ⟨h.speaks.mono (fun _ => id) hk, fun ht => (h.describes ht).later hk⟩

theorem Stands.congr (h : Stands T truth k f X) (e : ∀ s, s ∈ X ↔ s ∈ Y) : Stands T truth k f Y :=
  ⟨h.speaks, fun ht => (h.describes ht).congr e⟩

/-- What formulas stand for one by one their conjunction stands for. -/
theorem stands_conj {as : List α} {fs : List Formula} {R : α → Set (State T.elementary)}
    (h : List.Forall₂ (fun a f => Stands T truth k f (R a)) as fs) :
    Stands T truth k (.conj fs) {s | ∀ a ∈ as, s ∈ R a} where
  speaks := by
    refine Formula.speaks_conj fun f hf => ?_
    obtain ⟨i, hi, rfl⟩ := List.getElem_of_mem hf
    exact (h.get (h.length_eq ▸ hi) hi).speaks
  describes ht := (Formula.sayAll_of_forall₂ (h.imp fun _ _ h => h.describes ht)).conj


/-! ## 2. Names that are not used yet -/

/-- States that are made later have no variable in a formula whose own names are none of theirs. -/
theorem unused_of_speaks {own : String → Prop} {k' : Nat} (h : f.Speaks own k) (hk : k ≤ k')
    (hown : ∀ x, own x → ∀ n, k' ≤ n → x ∉ (T.successor n).names) : T.Unused k' f := by
  intro n hn x hx hf
  rcases h.names x hf with rfl | hx' | hx'
  · exact true_not_mem_names _ hx
  · exact hown x hx' n hn hx
  · exact (not_mem_of_isBelow hx' (Nat.le_trans hk hn)).2 hx

theorem unused_current (h : f.Speaks (· ∈ T.current.names) k) : T.Unused k f :=
  unused_of_speaks h (Nat.le_refl k) fun _ hx n _ => current_disjoint n hx

/-- Once a successor is made its own variables are used. -/
theorem unused_between (h : f.Speaks (T.Between n) n) : T.Unused (n + 1) f := by
  refine unused_of_speaks h (Nat.le_succ n) fun x hx m hm => ?_
  rcases hx with hx | hx
  · exact current_disjoint m hx
  · exact (not_mem_of_isBelow (isBelow_of_mem hx) hm).2

theorem unused_successor (h : f.Speaks (· ∈ (T.successor n).names) n) : T.Unused (n + 1) f :=
  unused_between (h.mono (fun _ => Or.inr) (Nat.le_refl n))

theorem speaks_quantify_current (h : f.Speaks (· ∈ T.current.names) k) :
    (T.current.quantify .existential f).Speaks (· ∈ T.current.names) k where
  existential := (isExistentialQuery_quantify h).existential
  free x hx := Or.inl ((isExistentialQuery_quantify h).closed x hx)
  bound x hx := by
    rw [quantify, Formula.boundNames_bindAll, List.mem_append] at hx
    exact hx.elim Or.inl (h.bound x)
  names x hx := by
    rw [quantify, Formula.names_bindAll, List.mem_append] at hx
    exact hx.elim (fun hx => Or.inr (Or.inl hx)) (h.names x)

/-! ## 3. Single steps -/

namespace Dialogue

variable {m : α → Dialogue β} {Q : β → Stage → Prop}

theorem ensures_newState {m : SymbolicState → Dialogue β}
    (h : ∀ n, c.drawn ≤ n → (m (T.successor n)).Ensures T truth sure { c with drawn := n + 1 } Q) :
    (newState >>= m).Ensures T truth sure c Q := h

theorem ensures_attempt {r : Except Fault α} {a : α} (hr : r = .ok a)
    (h : (m a).Ensures T truth sure c Q) : (attempt r >>= m).Ensures T truth sure c Q := by
  subst hr
  exact h

theorem ensures_compute {m : Formula → Dialogue β} {r : Except Fault Formula} (hr : r = .ok f)
    (hf : T.Unused c.drawn f) (h : (m f).Ensures T truth sure c Q) :
    (compute r >>= m).Ensures T truth sure c Q := by
  subst hr
  exact ⟨hf, h⟩

/-- The value of a formula that the current state decides. -/
theorem ensures_value {m : Formula → Dialogue β} (hg : T.Decides g)
    (h : ∀ a, (∀ k, T.current.Describes k a {s | T.Satisfies s g}) →
      (m a).Ensures T truth sure c Q) :
    (compute (T.current.value g) >>= m).Ensures T truth sure c Q := by
  have same : ∀ k, ∃ a, T.current.value g = .ok a ∧
      T.current.Describes k a {s | T.Satisfies s g} := exists_value hg
  obtain ⟨a, ha, da⟩ := same c.drawn
  refine ensures_compute ha (unused_current da.speaks) (h a fun k => ?_)
  obtain ⟨b, hb, db⟩ := same k
  rw [ha] at hb
  cases hb
  exact db

/-- The question whether a described set has a member. -/
theorem ensures_inquire {m : Bool → Dialogue β} (hf : T.current.Describes c.drawn f X)
    (h : ∀ b, (truth → (b = true ↔ X.Nonempty)) → ∀ n, c.drawn ≤ n →
      (m b).Ensures T truth sure (c.answered n b) Q) :
    (inquire (T.current.quantify .existential f) >>= m).Ensures T truth sure c Q := by
  refine ⟨unused_current (speaks_quantify_current hf.speaks),
    isExistentialQuery_quantify hf.speaks, fun b hb => h b fun ht => ?_⟩
  rw [hb ht]
  exact isValid_quantify_iff hf.means

/-- The question whether a described set has members outside of another. -/
theorem ensures_inquire_diff {m : Bool → Dialogue β} (hf : T.current.Describes c.drawn f X)
    (hg : T.current.Describes c.drawn g Y)
    (h : ∀ b, (truth → (b = true ↔ ¬ X ⊆ Y)) → ∀ n, c.drawn ≤ n →
      (m b).Ensures T truth sure (c.answered n b) Q) :
    (inquire (T.current.quantify .existential (.and f (.not g))) >>= m).Ensures
      T truth sure c Q := by
  have diff : T.current.Describes c.drawn (.and f (.not g)) {s | s ∈ X ∧ s ∉ Y} := hf.and hg.not
  refine ensures_inquire diff fun b hb => h b fun ht => (hb ht).trans ?_
  rw [Set.not_subset]
  exact Iff.rfl

/-! ## 4. Successors -/

/-- The states with a successor of which more is said. -/
theorem ensures_successorIn (hT : T.Saturated)
    {more : SymbolicState → Except Fault (List Formula)}
    (hstates : T.current.Describes c.drawn states X)
    (hmore : ∀ n, c.drawn ≤ n → ∃ gs, more (T.successor n) = .ok gs ∧
      (T.successor n).DescribeAll n gs Y) :
    (successorIn T states T.current more).Ensures T truth sure c fun f c' =>
      c.Takes truth c' 0 0 ∧
        T.current.Describes c'.drawn f {s | ∃ t ∈ X, T.Follows s t ∧ t ∈ Y} := by
  refine ensures_newState fun n hn => ?_
  obtain ⟨step, hstep, dstep⟩ := exists_transition hT n
  obtain ⟨among, hamong, damong⟩ := exists_transfer hn hstates
  obtain ⟨others, hothers, dothers⟩ := hmore n hn
  have some := describes_exist (Y := {t | t ∈ X ∧ t ∈ Y}) dstep (damong.cons dothers)
  refine ensures_compute hstep (unused_between dstep.speaks) ?_
  refine ensures_compute hamong (unused_successor damong.speaks) ?_
  refine ensures_attempt hothers ⟨unused_current some.speaks, ?_, some.congr fun s => ?_⟩
  · exact Stage.takes_drawn (Nat.le_succ_of_le hn)
  · constructor
    · rintro ⟨t, ⟨ht, htY⟩, hst⟩
      exact ⟨t, ht, hst, htY⟩
    · rintro ⟨t, ht, hst, htY⟩
      exact ⟨t, ⟨ht, htY⟩, hst⟩

/-- The states that find what they promise in successors of which more is said. -/
theorem ensures_promisesMet (hT : T.Saturated)
    {more : SymbolicState → Except Fault (List Formula)}
    (hstates : T.current.Describes c.drawn states X)
    (hmore : ∀ n, c.drawn ≤ n → ∃ gs, more (T.successor n) = .ok gs ∧
      (T.successor n).DescribeAll n gs Y) :
    (promisesMet T states T.current more).Ensures T truth sure c fun fs c' =>
      c.Takes truth c' 0 0 ∧
        T.current.DescribeAll c'.drawn fs {s | ∀ g, .ex g ∈ T.elementary →
          T.Satisfies s (.ex g) → ∃ t ∈ X, T.Follows s t ∧ t ∈ Y ∧ T.Satisfies t g} := by
  have one : ∀ g ∈ T.promises, ∀ c', c.drawn ≤ c'.drawn →
      Ensures T truth sure (do
          let met ← successorIn T states T.current fun next => do
            return (← more next) ++ [← next.value g]
          let promised ← compute (T.current.value (.ex g))
          put (.or (.not promised) met)) c' fun f c'' =>
        c'.Takes truth c'' 0 0 ∧ T.current.Describes c''.drawn f {s | T.Satisfies s (.ex g) →
          ∃ t ∈ X, T.Follows s t ∧ t ∈ Y ∧ T.Satisfies t g} := by
    intro g hg c' later
    have hex := mem_promises.1 hg
    refine (ensures_successorIn (Y := {t | t ∈ Y ∧ T.Satisfies t g}) hT (hstates.later later)
      fun n hn => ?_).bind fun met c'' ⟨h, hmet⟩ => ?_
    · obtain ⟨gs, hgs, dgs⟩ := hmore n (Nat.le_trans later hn)
      obtain ⟨a, ha, da⟩ := exists_successor_value (hT.keeps g hex) n
      refine ⟨gs ++ [a], by simp [hgs, ha, bind, Except.bind, pure, Except.pure], ?_⟩
      exact (dgs.append (da.cons Formula.sayAll_nil)).congr fun ρ => by simp
    · refine ensures_value (hT.next hex) fun a da => ?_
      have both := (da c''.drawn).not.or hmet
      exact ⟨unused_current both.speaks, h, both.congr fun ρ => (imp_iff_not_or).symm⟩
  refine (Ensures.mapM (y := fun _ => 0) (n := fun _ => 0)
    (R := fun k g f => T.current.Describes k f {s | T.Satisfies s (.ex g) →
      ∃ t ∈ X, T.Follows s t ∧ t ∈ Y ∧ T.Satisfies t g})
    (fun k k' g f hk h => h.later hk) one).mono fun fs c' ⟨h, hfs⟩ =>
      ⟨by simpa using h, (Formula.sayAll_of_forall₂ hfs).congr fun ρ => ?_⟩
  exact forall_congr' fun g => imp_congr_left mem_promises

/-! ## 5. Eventualities -/

/-- **A loop that grows a set stops at a stage that does not grow**, if the answers are true; and it
    has asked once for every stage. -/
theorem ensures_grow {F : Set (State T.elementary) →o Set (State T.elementary)}
    {step : Formula → Dialogue Formula}
    (hstep : ∀ c' f Y, c.drawn ≤ c'.drawn → T.current.Describes c'.drawn f Y →
      (step f).Ensures T truth sure c' fun g c'' =>
        c'.Takes truth c'' 0 0 ∧ T.current.Describes c''.drawn g (F Y))
    {fuel r : Nat} (hc : c.Takes truth c' r 0) (hf : T.current.Describes c'.drawn f (F^[r] ∅))
    (grown : truth → ∀ i < r, ¬ F^[i + 1] ∅ ⊆ F^[i] ∅)
    (enough : sure → truth ∧ T.roundBound ≤ fuel + r) :
    (grow T.current step fuel r f).Ensures T truth sure c' fun res c'' =>
      ∃ n, res.2 = n + 1 ∧ c.Takes truth c'' n 1 ∧ T.current.Describes c''.drawn res.1 (F^[n] ∅) ∧
        (truth → IsLeast {i | F^[i + 1] ∅ ⊆ F^[i] ∅} n) := by
  induction fuel generalizing r f c' with
  | zero =>
    refine ⟨rfl, fun hs => ?_⟩
    obtain ⟨ht, hr⟩ := enough hs
    have := T.lt_roundBound (le_card_of_grows (grown ht))
    omega
  | succ fuel ih =>
    rw [grow]
    refine (hstep c' f _ hc.drawn hf).bind fun g c1 h => ?_
    obtain ⟨h1, hg⟩ := h
    have hf' := hf.later h1.drawn
    rw [← Function.iterate_succ_apply' F] at hg
    refine ensures_inquire_diff hg hf' fun grows hgrows n hn => ?_
    have later := (hc.trans h1).trans (Stage.takes_answered hn grows)
    have drawn : c1.drawn ≤ (c1.answered n grows).drawn := by rwa [Stage.drawn_answered]
    cases grows with
    | true =>
      rw [if_pos rfl]
      refine ih later (hg.later drawn) (fun ht i hi => ?_) fun hs => ?_
      · rcases Nat.lt_succ_iff_lt_or_eq.1 hi with hi | rfl
        · exact grown ht i hi
        · exact (hgrows ht).1 rfl
      · obtain ⟨ht, hr⟩ := enough hs
        exact ⟨ht, by omega⟩
    | false =>
      rw [if_neg Bool.false_ne_true]
      refine ⟨r, rfl, later, hf'.later drawn, fun ht => ⟨?_, fun i hi => ?_⟩⟩
      · by_contra h
        cases (hgrows ht).2 h
      · by_contra hlt
        exact grown ht i (Nat.lt_of_not_le hlt) hi

/-- The loop for an "until" stops at the least fixpoint of its step. -/
theorem ensures_fragment {F : Set (State T.elementary) →o Set (State T.elementary)}
    {step : Formula → Dialogue Formula} {rounds : Nat}
    (hstep : ∀ c' f Y, c.drawn ≤ c'.drawn → T.current.Describes c'.drawn f Y →
      (step f).Ensures T truth sure c' fun g c'' =>
        c'.Takes truth c'' 0 0 ∧ T.current.Describes c''.drawn g (F Y))
    (enough : sure → truth ∧ T.roundBound ≤ rounds) (op : BinaryOp) (p q : Formula) :
    (fragment rounds T.current op p q step).Ensures T truth sure c fun f c' =>
      c.Takes truth c' (stage F) 1 ∧ Stands T truth c'.drawn f F.lfp := by
  refine (ensures_grow hstep (.refl c) (r := 0) describes_falsity
    (fun _ i hi => absurd hi (Nat.not_lt_zero i)) enough).bind fun (f, _) c' ⟨n, _, h, hf, hn⟩ => ?_
  refine ⟨h.congr fun ht => (hn ht).csInf_eq.symm, stands_of_describes hf fun ht => ?_⟩
  exact (lfp_eq_iterate (hn ht).1).symm

/-- What is said of a successor that belongs to a fragment. -/
theorem exists_inFragment (hk : k ≤ n) (hf : T.current.Describes k f Y) : ∃ gs,
    (do return [← T.current.transfer (T.successor n) f]) =
      (.ok gs : Except Fault (List Formula)) ∧ (T.successor n).DescribeAll n gs Y := by
  obtain ⟨f', hf', df⟩ := exists_transfer hk hf
  exact ⟨[f'], by simp [hf', bind, Except.bind, pure, Except.pure],
    (df.cons Formula.sayAll_nil).congr fun ρ => by simp⟩

/-- One step more of "until" on some path. -/
theorem ensures_untilStep (hT : T.Saturated) {p q : Formula} (hp : T.Decides p) (hq : T.Decides q)
    (hstates : T.current.Describes c.drawn states X) (hf : T.current.Describes c.drawn f Y) :
    (untilStep T states T.current p q f).Ensures T truth sure c fun g c' =>
      c.Takes truth c' 0 0 ∧ T.current.Describes c'.drawn g (T.pathStep X p q Y) := by
  refine (ensures_successorIn hT hstates fun n hn => exists_inFragment hn hf).bind
    fun step c' ⟨h, hstep⟩ => ?_
  refine ensures_value hq fun now dnow => ensures_value hp fun still dstill => ?_
  have all := (dnow c'.drawn).or ((dstill c'.drawn).and hstep)
  exact ⟨unused_current all.speaks, h, all⟩

/-- One step more of "until" in some tree. -/
theorem ensures_everyUntilStep (hT : T.Saturated) {p q : Formula} (hp : T.Decides p)
    (hq : T.Decides q) (hstates : T.current.Describes c.drawn states X)
    (hf : T.current.Describes c.drawn f Y) :
    (everyUntilStep T states T.current p q f).Ensures T truth sure c fun g c' =>
      c.Takes truth c' 0 0 ∧ T.current.Describes c'.drawn g (T.treeStep X p q Y) := by
  refine ensures_value hp fun still dstill => ?_
  refine (ensures_successorIn hT hstates fun n hn => exists_inFragment hn hf).bind
    fun step c1 ⟨h1, hstep⟩ => ?_
  have hf' := hf.later h1.drawn
  refine (ensures_promisesMet hT (hstates.later h1.drawn) fun n hn => exists_inFragment hn hf').bind
    fun met c2 ⟨h2, hmet⟩ => ?_
  refine ensures_value hq fun now dnow => ?_
  have all := (dnow c2.drawn).or
    ((dstill c2.drawn).cons ((hstep.later h2.drawn).cons hmet)).conj
  exact ⟨unused_current all.speaks, h1.trans h2, all⟩

/-- The conjunction of terms that take a loop each. -/
theorem ensures_conj {as : List α} {m : α → Dialogue Formula} {y : α → Nat}
    {R : α → Set (State T.elementary)}
    (hm : ∀ a ∈ as, ∀ c', c.drawn ≤ c'.drawn → (m a).Ensures T truth sure c' fun f c'' =>
      c'.Takes truth c'' (y a) 1 ∧ Stands T truth c''.drawn f (R a)) :
    Ensures T truth sure (do put (.conj (← as.mapM m))) c fun f c' =>
      c.Takes truth c' (as.map y).sum as.length ∧
        Stands T truth c'.drawn f {s | ∀ a ∈ as, s ∈ R a} := by
  refine (Ensures.mapM (n := fun _ => 1) (R := fun k a f => Stands T truth k f (R a))
    (fun k k' a f hk h => h.later hk) hm).bind fun terms c' ⟨h, hterms⟩ => ?_
  have all := stands_conj hterms
  exact ⟨unused_current all.speaks, by simpa using h, all⟩

/-- The states at which every existential "until" is met that they pass on. -/
theorem ensures_untilsMet (hT : T.Saturated) {rounds : Nat}
    (enough : sure → truth ∧ T.roundBound ≤ rounds)
    (hstates : T.current.Describes c.drawn states X) :
    (untilsMet T rounds states T.current).Ensures T truth sure c fun f c' =>
      c.Takes truth c' (T.untils.map fun r => stage (T.pathStep X r.1 r.2)).sum T.untils.length ∧
      Stands T truth c'.drawn f {s | ∀ p q, .ex (.eu p q) ∈ T.elementary →
        T.Satisfies s (.ex (.eu p q)) → T.Satisfies s p → s ∈ (T.pathStep X p q).lfp} := by
  refine (ensures_conj (R := fun r => {s | T.Satisfies s (.ex (.eu r.1 r.2)) →
    T.Satisfies s r.1 → s ∈ (T.pathStep X r.1 r.2).lfp}) ?_).mono
      fun f c' ⟨h, hf⟩ => ⟨h, hf.congr fun s => ?_⟩
  · intro (p, q) hr c1 h1
    have hex := mem_untils.1 hr
    obtain ⟨hp, hq⟩ := hT.until hex
    refine (ensures_fragment (F := T.pathStep X p q) (fun c2 f Y h2 hf => ensures_untilStep hT hp hq
      (hstates.later (Nat.le_trans h1 h2)) hf) enough .eu p q).bind fun f c2 ⟨h2, hf⟩ => ?_
    obtain ⟨Z, dZ, hZ⟩ := hf.exists_describes
    refine ensures_value (hT.next hex) fun denied ddenied => ensures_value hp fun still dstill => ?_
    have all := ((ddenied c2.drawn).not.or (dstill c2.drawn).not).or dZ
    refine ⟨unused_current all.speaks, h2, all.speaks, fun ht => all.congr fun ρ => ?_⟩
    rw [or_assoc, ← imp_iff_not_or, ← imp_iff_not_or, hZ ht]
    exact Iff.rfl
  · rw [Set.mem_ofPred_eq, Set.mem_ofPred_eq, Prod.forall]
    exact forall_congr' fun p => forall_congr' fun q => imp_congr_left mem_untils

/-- The states at which every universal "until" is met that they promise to pass on. -/
theorem ensures_everyUntilsMet (hT : T.Saturated) {rounds : Nat}
    (enough : sure → truth ∧ T.roundBound ≤ rounds)
    (hstates : T.current.Describes c.drawn states X) :
    (everyUntilsMet T rounds states T.current).Ensures T truth sure c fun f c' =>
      c.Takes truth c' (T.releases.map fun r => stage (T.treeStep X r.1.negate r.2.negate)).sum
        T.releases.length ∧
      Stands T truth c'.drawn f {s | ∀ p q, .ex (.er p q) ∈ T.elementary →
        ¬ T.Satisfies s (.ex (.er p q)) → ¬ T.Satisfies s p →
          s ∈ (T.treeStep X p.negate q.negate).lfp} := by
  refine (ensures_conj (R := fun r => {s | ¬ T.Satisfies s (.ex (.er r.1 r.2)) →
    ¬ T.Satisfies s r.1 → s ∈ (T.treeStep X r.1.negate r.2.negate).lfp}) ?_).mono
      fun f c' ⟨h, hf⟩ => ⟨h, hf.congr fun s => ?_⟩
  · intro (p, q) hr c1 h1
    have hex := mem_releases.1 hr
    obtain ⟨hp, hq⟩ := hT.release hex
    refine (ensures_fragment (F := T.treeStep X p.negate q.negate) (fun c2 f Y h2 hf =>
      ensures_everyUntilStep hT hp.negate hq.negate (hstates.later (Nat.le_trans h1 h2)) hf)
      enough .au p.negate q.negate).bind fun f c2 ⟨h2, hf⟩ => ?_
    obtain ⟨Z, dZ, hZ⟩ := hf.exists_describes
    refine ensures_value (hT.next hex) fun released dreleased =>
      ensures_value hp fun still dstill => ?_
    have all := ((dreleased c2.drawn).or (dstill c2.drawn)).or dZ
    refine ⟨unused_current all.speaks, h2, all.speaks, fun ht => all.congr fun ρ => ?_⟩
    rw [or_assoc, or_iff_not_imp_left, or_iff_not_imp_left, hZ ht]
    exact Iff.rfl
  · rw [Set.mem_ofPred_eq, Set.mem_ofPred_eq, Prod.forall]
    exact forall_congr' fun p => forall_congr' fun q => imp_congr_left mem_releases

/-! ## 6. Rounds -/

/-- The states that stay. -/
theorem ensures_refined (hT : T.Saturated) {rounds : Nat}
    (enough : sure → truth ∧ T.roundBound ≤ rounds)
    (hstates : T.current.Describes c.drawn states X) :
    (refined T rounds T.current states).Ensures T truth sure c fun f c' =>
      c.Takes truth c' (T.effort X) (T.loops) ∧ Stands T truth c'.drawn f (T.prune X) := by
  have nothing : ∀ k, c.drawn ≤ k → ∀ n, k ≤ n → ∃ gs,
      (return [] : Except Fault (List Formula)) = .ok gs ∧
        (T.successor n).DescribeAll n gs Set.univ :=
    fun _ _ n _ => ⟨[], rfl, Formula.sayAll_nil⟩
  refine (ensures_successorIn (Y := Set.univ) hT hstates (nothing _ (Nat.le_refl _))).bind
    fun succeeded c1 ⟨h1, d1⟩ => ?_
  refine (ensures_promisesMet (Y := Set.univ) hT (hstates.later h1.drawn)
    (nothing _ h1.drawn)).bind fun promised c2 ⟨h2, d2⟩ => ?_
  have h02 := h1.trans h2
  refine (ensures_untilsMet hT enough (hstates.later h02.drawn)).bind
    fun untils c3 ⟨h3, s3⟩ => ?_
  have h03 := h02.trans h3
  refine (ensures_everyUntilsMet hT enough (hstates.later h03.drawn)).bind
    fun everyUntils c4 ⟨h4, s4⟩ => ?_
  have h04 := h03.trans h4
  have h24 := h3.trans h4
  obtain ⟨Z3, d3, e3⟩ := s3.exists_describes
  obtain ⟨Z4, d4, e4⟩ := s4.exists_describes
  have all := ((hstates.later h04.drawn).cons ((d1.later (h2.trans h24).drawn).cons
    (((d2.conj).later h24.drawn).cons ((d3.later h4.drawn).cons
      (d4.cons Formula.sayAll_nil))))).conj
  refine ⟨unused_current all.speaks, ?_, all.speaks, fun ht => all.congr fun ρ => ?_⟩
  · simpa only [Nat.zero_add, effort, loops] using h04
  rw [e3 ht, e4 ht]
  constructor
  · rintro ⟨hX, ⟨t, ht, hst, -⟩, hpromised, huntils, heverywhere, -⟩
    refine ⟨hX, ⟨t, ht, hst⟩, fun g hg hs => ?_, huntils, heverywhere⟩
    obtain ⟨t, ht, hst, -, htg⟩ := hpromised g hg hs
    exact ⟨t, ht, hst, htg⟩
  · rintro ⟨hX, ⟨t, ht, hst⟩, hpromised, huntils, heverywhere⟩
    refine ⟨hX, ⟨t, ht, hst, trivial⟩, fun g hg hs => ?_, huntils, heverywhere, trivial⟩
    obtain ⟨t, ht, hst, htg⟩ := hpromised g hg hs
    exact ⟨t, ht, hst, trivial, htg⟩

/-- **A round prunes the set of states**, and sees whether a state was removed. -/
theorem ensures_round (hT : T.Saturated) {rounds : Nat}
    (enough : sure → truth ∧ T.roundBound ≤ rounds)
    (hstates : T.current.Describes c.drawn states X) (number : Nat) :
    (round T rounds T.current number states).Ensures T truth sure c fun res c' =>
      c.Takes truth c' (T.effort X + res.2.toNat) (T.loops + (!res.2).toNat) ∧
        Stands T truth c'.drawn res.1 (T.prune X) ∧
          (truth → (res.2 = true ↔ ¬ X ⊆ T.prune X)) := by
  refine (ensures_refined hT enough hstates).bind fun rest c1 ⟨h1, s1⟩ => ?_
  obtain ⟨Z, d1, e1⟩ := s1.exists_describes
  refine ensures_inquire_diff (hstates.later h1.drawn) d1 fun removed hremoved n hn => ?_
  refine ⟨h1.trans (Stage.takes_answered hn removed), s1.later ?_, fun ht => ?_⟩
  · rwa [Stage.drawn_answered]
  · rw [← e1 ht]
    exact hremoved ht

end Dialogue

/-! ## 7. Runs with an engine that tells the truth -/

variable {σ : Type} {engine : Engine σ} {rounds : Nat} {s : Session σ}

/-- What a run relies on: the engine tells the truth; and where the run is sure to have a result, the
    engine answers always, and loops have as many rounds as they need. -/
structure Backing (T : Tableau) (engine : Engine σ) (rounds : Nat) (sure : Prop) : Prop where
  sound : engine.Sound
  complete : sure → engine.Complete
  enough : sure → T.roundBound ≤ rounds

/-- The run of a dialogue comes to what this ensures for true answers. -/
theorem Backing.leads (b : Backing T engine rounds sure) {d : Dialogue α} {P : α → Stage → Prop}
    (h : d.Ensures T True sure { drawn := s.tickets.next, yes := s.queries } P) :
    Leads sure (d.run T engine) s fun a s' => ∃ c, P a c ∧ c.drawn = s'.tickets.next := by
  have backs : Dialogue.Backs engine (fun _ => True) True sure :=
    { draws := fun f t s hf _ => b.sound.draws f t s hf.isQuery hf.binders
      stays := fun _ _ _ _ _ => trivial
      truthful := fun _ f t s a hf _ => b.sound.truthful f t s a hf.isQuery hf.binders
      answers := fun hs f t s hf _ => (b.complete hs).answers f t s hf.isQuery hf.binders
      persists := fun hs f t s hf _ => (b.complete hs).persists f t s hf.isQuery hf.binders }
  exact (h.leads backs ⟨trivial, rfl, rfl⟩).mono fun a s' _ ⟨c, hP, hc⟩ => ⟨c, hP, hc.drawn⟩

/-- **A query is answered with the truth.** -/
theorem leads_inquire (b : Backing T engine rounds sure)
    (hf : T.current.Describes s.tickets.next f X) :
    Leads sure (query engine (T.current.quantify .existential f)) s fun r _ =>
      r = true ↔ X.Nonempty := by
  have h := b.leads (s := s) (P := fun r _ => r = true ↔ X.Nonempty)
    (Dialogue.ensures_inquire (m := pure) hf fun _ hr _ _ => hr trivial)
  rw [bind_pure, Dialogue.run_inquire] at h
  exact h.mono fun r _ _ ⟨_, hr, _⟩ => hr

/-- The last event of the session is that a loop for an "until" came to its end in time. -/
def Converged (T : Tableau) (op : BinaryOp) (p q : Formula) (s : Session σ) : Prop :=
  ∃ n ≤ T.roundBound, s.log.back? = some (.converged op p q n)

/-- A loop for an "until" leads to the states at which it is met, and notes down when it ended. -/
theorem leads_fragment (b : Backing T engine rounds sure)
    {F : Set (State T.elementary) →o Set (State T.elementary)} {step : Formula → Dialogue Formula}
    (hstep : ∀ c f Y, s.tickets.next ≤ c.drawn → T.current.Describes c.drawn f Y →
      (step f).Ensures T True sure c fun g c' =>
        c.Takes True c' 0 0 ∧ T.current.Describes c'.drawn g (F Y))
    (op : BinaryOp) (p q : Formula) :
    Leads sure (do
        let (fragment, n) ← grow engine T.current (fun f => (step f).run T engine) rounds 0 .falsity
        note (.converged op p q n)
        return fragment) s fun f s' =>
      T.current.Describes s'.tickets.next f F.lfp ∧ T.Converged op p q s' := by
  have grows := b.leads (s := s) (Dialogue.ensures_grow hstep (.refl _) (r := 0) describes_falsity
    (fun _ i hi => absurd hi (Nat.not_lt_zero i)) fun hs => ⟨trivial, b.enough hs⟩)
  rw [Dialogue.run_grow] at grows
  refine leads_bind grows fun (f, m) s' _ ⟨c, ⟨n, hm, _, hf, hn⟩, hc⟩ => ?_
  obtain rfl : m = n + 1 := hm
  rw [hc] at hf
  have grown : ∀ i < n, ¬ F^[i + 1] ∅ ⊆ F^[i] ∅ := fun i hi h =>
    Nat.not_le_of_lt hi ((hn trivial).2 h)
  refine leads_bind (leads_note (P := fun _ s'' => s''.tickets = s'.tickets ∧
    T.Converged op p q s'') ⟨rfl, _, T.lt_roundBound (le_card_of_grows grown), by simp⟩)
    fun _ s'' _ h => leads_pure ⟨?_, h.2⟩
  rw [h.1, lfp_eq_iterate (hn trivial).1]
  exact hf

theorem leads_untilFragment (b : Backing T engine rounds sure) (hT : T.Saturated)
    {p q : Formula} (hp : T.Decides p) (hq : T.Decides q)
    (hstates : T.current.Describes s.tickets.next states X) :
    Leads sure (T.untilFragment engine rounds states T.current p q) s fun f s' =>
      T.current.Describes s'.tickets.next f (T.pathStep X p q).lfp ∧ T.Converged .eu p q s' := by
  have h := leads_fragment b (F := T.pathStep X p q) (fun c f Y later hf =>
    Dialogue.ensures_untilStep hT hp hq (hstates.later later) hf) .eu p q
  simp only [Dialogue.run_untilStep] at h
  exact h

theorem leads_everyUntilFragment (b : Backing T engine rounds sure) (hT : T.Saturated)
    {p q : Formula} (hp : T.Decides p) (hq : T.Decides q)
    (hstates : T.current.Describes s.tickets.next states X) :
    Leads sure (T.everyUntilFragment engine rounds states T.current p q) s fun f s' =>
      T.current.Describes s'.tickets.next f (T.treeStep X p q).lfp ∧ T.Converged .au p q s' := by
  have h := leads_fragment b (F := T.treeStep X p q) (fun c f Y later hf =>
    Dialogue.ensures_everyUntilStep hT hp hq (hstates.later later) hf) .au p q
  simp only [Dialogue.run_everyUntilStep] at h
  exact h

theorem leads_round (b : Backing T engine rounds sure) (hT : T.Saturated)
    (hstates : T.current.Describes s.tickets.next states X) (number : Nat) :
    Leads sure (T.round engine rounds T.current number states) s fun res s' =>
      T.current.Describes s'.tickets.next res.1 (T.prune X) ∧
        (res.2 = true ↔ ¬ X ⊆ T.prune X) := by
  have h := b.leads (s := s) (Dialogue.ensures_round hT (fun hs => ⟨trivial, b.enough hs⟩) hstates
    number)
  rw [Dialogue.run_round] at h
  refine h.mono fun res s' _ ⟨c, ⟨_, hrest, hremoved⟩, hc⟩ => ⟨?_, hremoved trivial⟩
  rw [← hc]
  exact hrest.describes trivial

end CtlTableau.Tableau
