import CtlTableau.Proofs.Agreement
import CtlTableau.Proofs.Renaming

/-!
# Reports do not depend on names

The tableau of a renamed formula has its elementary formulas in another order, and with them the
variables of a state, the promises and the loops of a round. What a check reports stays the same
(`reports_agree_renamed`), whatever the new names look like. The states of one tableau are those of the
other in other names (`Renames.states`); along this bijection truth, the relation between states, the
steps of "until" and pruning go over into one another, and so the stages of all fixpoints do
(`stage_eq`).
-/

namespace CtlTableau

/-! ## 1. Fixpoints along a bijection -/

section Stages

variable {S S' : Type} {e : S ≃ S'} {F : Set S →o Set S} {F' : Set S' →o Set S'}

theorem preimage_iterate {g : Set S → Set S} {g' : Set S' → Set S'}
    (h : ∀ X, Set.preimage e (g' X) = g (Set.preimage e X)) (n : Nat) (X : Set S') :
    Set.preimage e (g'^[n] X) = g^[n] (Set.preimage e X) :=
  Function.Semiconj.iterate_right (f := Set.preimage e) h n X

/-- Steps that go over into one another grow their sets as often. -/
theorem stage_eq (h : ∀ X, Set.preimage e (F' X) = F (Set.preimage e X)) : stage F' = stage F := by
  have grown : ∀ n, Set.preimage e (F'^[n] ∅) = F^[n] ∅ := fun n => preimage_iterate h n ∅
  refine congrArg sInf (Set.ext fun n => ?_)
  rw [Set.mem_ofPred_eq, Set.mem_ofPred_eq, ← grown n, ← grown (n + 1)]
  exact e.surjective.preimage_subset_preimage_iff.symm

/-- Their least fixpoints go over into one another. -/
theorem mem_lfp_iff [Fintype S] [Fintype S'] (h : ∀ X, Set.preimage e (F' X) = F (Set.preimage e X))
    (s : S) : e s ∈ F'.lfp ↔ s ∈ F.lfp := by
  have grown : ∀ n, e s ∈ F'^[n] ∅ ↔ s ∈ F^[n] ∅ := fun n =>
    Set.ext_iff.1 (preimage_iterate h n ∅) s
  constructor
  · intro hs
    obtain ⟨n, hn⟩ := exists_mem_iterate hs
    exact iterate_subset_lfp F n ((grown n).1 hn)
  · intro hs
    obtain ⟨n, hn⟩ := exists_mem_iterate hs
    exact iterate_subset_lfp F' n ((grown n).2 hn)

end Stages

/-- What a list is filtered for comes in the order of the list. -/
theorem filterMap_perm {α β : Type} {k : α → Option β} {m : α → α} {m' : β → β}
    (hk : ∀ a, k (m a) = (k a).map m') {l l' : List α} (h : l'.Perm (l.map m)) :
    (l'.filterMap k).Perm ((l.filterMap k).map m') := by
  have commutes : (l.map m).filterMap k = (l.filterMap k).map m' := by
    rw [List.filterMap_map, List.map_filterMap]
    exact congrArg (List.filterMap · l) (funext hk)
  exact commutes ▸ h.filterMap k

namespace Tableau

/-! ## 2. Tableaux in other names -/

/-- The second tableau is the first one in other names. -/
structure Renames (π : Equiv.Perm String) (T T' : Tableau) : Prop where
  constant : ∀ x, π x = Formula.trueName ↔ x = Formula.trueName
  normalized : T'.normalized = T.normalized.mapNames π
  mem_iff : ∀ e, e.mapNames π ∈ T'.elementary ↔ e ∈ T.elementary

theorem ofFormula_eq_ok_iff {f : Formula} {T : Tableau} : ofFormula f = .ok T ↔
    ∃ es, f.normalize.elementaryList = .ok es ∧
      T = ⟨f.normalize, (OrderedSet.ofList es).filter Formula.isPositiveElementary⟩ := by
  rw [ofFormula, Formula.positiveClosure, Formula.closure]
  cases f.normalize.elementaryList with
  | error e =>
    refine iff_of_false (fun h => ?_) fun h => ?_
    · cases h
    · obtain ⟨es, h, -⟩ := h
      cases h
  | ok es =>
    constructor
    · intro h
      cases h
      exact ⟨es, rfl, rfl⟩
    · rintro ⟨es', e, eT⟩
      cases e
      rw [eT]
      rfl

/-- A renamed formula has the tableau of the formula, in other names. -/
theorem exists_renames {f : Formula} {T : Tableau} {π : Equiv.Perm String}
    (hπ : ∀ x, π x = Formula.trueName ↔ x = Formula.trueName) (hT : ofFormula f = .ok T) :
    ∃ T', ofFormula (f.mapNames π) = .ok T' ∧ Renames π T T' := by
  obtain ⟨es, hes, rfl⟩ := ofFormula_eq_ok_iff.1 hT
  have renamed := Formula.elementaryList_mapNames hπ hes
  rw [← Formula.normalize_mapNames hπ] at renamed
  refine ⟨_, ofFormula_eq_ok_iff.2 ⟨_, renamed, rfl⟩, hπ, Formula.normalize_mapNames hπ f,
    fun e => ?_⟩
  have collected : e.mapNames π ∈ es.map (Formula.mapNames π) ↔ e ∈ es :=
    List.mem_map_of_injective (Formula.renamed π).injective
  rw [OrderedSet.mem_filter, OrderedSet.mem_filter, OrderedSet.mem_ofList, OrderedSet.mem_ofList,
    Formula.isPositiveElementary_mapNames hπ, collected]

namespace Renames

variable {π : Equiv.Perm String} {T T' : Tableau} (h : Renames π T T')
include h

/-- The states of a tableau are those of the other, in other names. -/
def states : State T.elementary ≃ State T'.elementary :=
  ((Formula.renamed π).subtypeEquiv fun e => (h.mem_iff e).symm).arrowCongr (Equiv.refl Bool)

theorem states_apply (s : State T.elementary) {e : Formula} (he : e ∈ T.elementary) :
    h.states s ⟨e.mapNames π, (h.mem_iff e).2 he⟩ = s ⟨e, he⟩ := by
  let elementary := (Formula.renamed π).subtypeEquiv fun e => (h.mem_iff e).symm
  exact congrArg s (elementary.symm_apply_apply ⟨e, he⟩)

theorem isTrue_states (s : State T.elementary) (e : Formula) :
    (h.states s).IsTrue (e.mapNames π) ↔ s.IsTrue e := by
  by_cases he : e ∈ T.elementary
  · rw [State.isTrue_iff ((h.mem_iff e).2 he), State.isTrue_iff he, h.states_apply s he]
  · exact iff_of_false (fun hs => he ((h.mem_iff e).1 hs.1)) fun hs => he hs.1

theorem decides {g : Formula} (hg : T.Decides g) : T'.Decides (g.mapNames π) :=
  ⟨hg.normal.mapNames π, (Formula.within_mapNames h.constant h.mem_iff hg.normal).2 hg.within⟩

theorem satisfies_iff {g : Formula} (hg : T.Decides g) (s : State T.elementary) :
    T'.Satisfies (h.states s) (g.mapNames π) ↔ T.Satisfies s g := by
  rw [Tableau.satisfies_iff (h.decides hg), Tableau.satisfies_iff hg]
  exact Formula.holdsBy_mapNames h.constant (h.isTrue_states s) hg.normal

/-- Whatever is said of all promised formulas can be said of all in the old names. -/
theorem forall_promise_iff {P : Formula → Prop} :
    (∀ g, .ex g ∈ T'.elementary → P g) ↔ ∀ g, .ex g ∈ T.elementary → P (g.mapNames π) := by
  rw [(Formula.renamed π).surjective.forall]
  exact forall_congr' fun g => imp_congr_left (h.mem_iff (.ex g))

theorem forall_carried_iff {op : BinaryOp} {P : Formula → Formula → Prop} :
    (∀ p q, .ex (.binary op p q) ∈ T'.elementary → P p q) ↔
      ∀ p q, .ex (.binary op p q) ∈ T.elementary → P (p.mapNames π) (q.mapNames π) := by
  rw [(Formula.renamed π).surjective.forall]
  refine forall_congr' fun p => ?_
  rw [(Formula.renamed π).surjective.forall]
  exact forall_congr' fun q => imp_congr_left (h.mem_iff (.ex (.binary op p q)))

theorem follows_iff (hT : T.Saturated) (s t : State T.elementary) :
    T'.Follows (h.states s) (h.states t) ↔ T.Follows s t := by
  rw [Follows, h.forall_promise_iff]
  refine forall_congr' fun g => forall_congr' fun hg => ?_
  rw [h.satisfies_iff (hT.keeps g hg)]
  exact imp_congr_left (not_congr (h.satisfies_iff (hT.next hg) s))

/-- Both tableaux have the same elementary formulas, in different orders. -/
theorem elementary_perm :
    T'.elementary.toList.Perm (T.elementary.toList.map (Formula.mapNames π)) := by
  have inj := (Formula.renamed π).injective
  refine (List.perm_ext_iff_of_nodup T'.elementary.nodup (T.elementary.nodup.map inj)).2
    ((Formula.renamed π).surjective.forall.2 fun e => ?_)
  exact (h.mem_iff e).trans (List.mem_map_of_injective inj).symm

theorem promises_perm : T'.promises.Perm (T.promises.map (Formula.mapNames π)) :=
  filterMap_perm (fun e => by rcases e with _ | ⟨_ | _, _⟩ | _ | _ <;> rfl) h.elementary_perm

theorem untils_perm :
    T'.untils.Perm (T.untils.map (Prod.map (Formula.mapNames π) (Formula.mapNames π))) :=
  filterMap_perm (fun e => by rcases e with _ | _ | ⟨_ | _, _⟩ | _ <;> rfl) h.promises_perm

theorem releases_perm :
    T'.releases.Perm (T.releases.map (Prod.map (Formula.mapNames π) (Formula.mapNames π))) :=
  filterMap_perm (fun e => by rcases e with _ | _ | ⟨_ | _, _⟩ | _ <;> rfl) h.promises_perm

theorem loops_eq : T'.loops = T.loops := by
  rw [loops, h.untils_perm.length_eq, h.releases_perm.length_eq, List.length_map, List.length_map]
  rfl

/-! ## 3. Pruning in other names -/

variable (hT : T.Saturated) (X : Set (State T'.elementary))
include hT

/-- A state has the successors of the other, in other names. -/
theorem exists_successor_iff {s : State T.elementary} {P : State T.elementary → Prop}
    {P' : State T'.elementary → Prop} (hP : ∀ t, P' (h.states t) ↔ P t) :
    (∃ t ∈ X, T'.Follows (h.states s) t ∧ P' t) ↔
      ∃ t ∈ Set.preimage h.states X, T.Follows s t ∧ P t := by
  rw [h.states.surjective.exists]
  exact exists_congr fun t => and_congr_right fun _ => and_congr (h.follows_iff hT s t) (hP t)

theorem preimage_pathStep {p q : Formula} (hp : T.Decides p) (hq : T.Decides q)
    (F : Set (State T'.elementary)) :
    Set.preimage h.states (T'.pathStep X (p.mapNames π) (q.mapNames π) F) =
      T.pathStep (Set.preimage h.states X) p q (Set.preimage h.states F) := by
  ext s
  refine or_congr (h.satisfies_iff hq s) (and_congr (h.satisfies_iff hp s) ?_)
  exact h.exists_successor_iff hT X fun t => Iff.rfl

theorem preimage_treeStep {p q : Formula} (hp : T.Decides p) (hq : T.Decides q)
    (F : Set (State T'.elementary)) :
    Set.preimage h.states (T'.treeStep X (p.mapNames π) (q.mapNames π) F) =
      T.treeStep (Set.preimage h.states X) p q (Set.preimage h.states F) := by
  ext s
  refine or_congr (h.satisfies_iff hq s) (and_congr (h.satisfies_iff hp s) (and_congr ?_ ?_))
  · exact h.exists_successor_iff hT X fun t => Iff.rfl
  · rw [h.forall_promise_iff]
    refine forall_congr' fun g => forall_congr' fun hg => ?_
    refine imp_congr (h.satisfies_iff (hT.next hg) s) (h.exists_successor_iff hT X fun t => ?_)
    exact and_congr_right fun _ => h.satisfies_iff (hT.keeps g hg) t

/-- States survive in other names. -/
theorem survives_iff (s : State T.elementary) :
    T'.Survives X (h.states s) ↔ T.Survives (Set.preimage h.states X) s := by
  have succeeded : (∃ t ∈ X, T'.Follows (h.states s) t) ↔
      ∃ t ∈ Set.preimage h.states X, T.Follows s t := by
    rw [h.states.surjective.exists]
    exact exists_congr fun t => and_congr_right fun _ => h.follows_iff hT s t
  have promised : (∀ g, .ex g ∈ T'.elementary → T'.Satisfies (h.states s) (.ex g) →
        ∃ t ∈ X, T'.Follows (h.states s) t ∧ T'.Satisfies t g) ↔
      ∀ g, .ex g ∈ T.elementary → T.Satisfies s (.ex g) →
        ∃ t ∈ Set.preimage h.states X, T.Follows s t ∧ T.Satisfies t g := by
    rw [h.forall_promise_iff]
    refine forall_congr' fun g => forall_congr' fun hg => ?_
    exact imp_congr (h.satisfies_iff (hT.next hg) s)
      (h.exists_successor_iff hT X (h.satisfies_iff (hT.keeps g hg)))
  have met : (∀ p q, .ex (.eu p q) ∈ T'.elementary → T'.Satisfies (h.states s) (.ex (.eu p q)) →
        T'.Satisfies (h.states s) p → h.states s ∈ (T'.pathStep X p q).lfp) ↔
      ∀ p q, .ex (.eu p q) ∈ T.elementary → T.Satisfies s (.ex (.eu p q)) → T.Satisfies s p →
        s ∈ (T.pathStep (Set.preimage h.states X) p q).lfp := by
    rw [h.forall_carried_iff]
    refine forall_congr' fun p => forall_congr' fun q => forall_congr' fun hpq => ?_
    obtain ⟨hp, hq⟩ := hT.until hpq
    refine imp_congr (h.satisfies_iff (hT.next hpq) s) (imp_congr (h.satisfies_iff hp s) ?_)
    exact mem_lfp_iff (h.preimage_pathStep hT X hp hq) s
  have everywhere : (∀ p q, .ex (.er p q) ∈ T'.elementary →
        ¬ T'.Satisfies (h.states s) (.ex (.er p q)) → ¬ T'.Satisfies (h.states s) p →
        h.states s ∈ (T'.treeStep X p.negate q.negate).lfp) ↔
      ∀ p q, .ex (.er p q) ∈ T.elementary → ¬ T.Satisfies s (.ex (.er p q)) →
        ¬ T.Satisfies s p → s ∈ (T.treeStep (Set.preimage h.states X) p.negate q.negate).lfp := by
    rw [h.forall_carried_iff]
    refine forall_congr' fun p => forall_congr' fun q => forall_congr' fun hpq => ?_
    obtain ⟨hp, hq⟩ := hT.release hpq
    refine imp_congr (not_congr (h.satisfies_iff (hT.next hpq) s))
      (imp_congr (not_congr (h.satisfies_iff hp s)) ?_)
    rw [Formula.negate_mapNames, Formula.negate_mapNames]
    exact mem_lfp_iff (h.preimage_treeStep hT X hp.negate hq.negate) s
  constructor
  · intro hs
    exact ⟨hs.mem, succeeded.1 hs.succeeded, promised.1 hs.promised, met.1 hs.met,
      everywhere.1 hs.everywhere⟩
  · intro hs
    exact ⟨hs.mem, succeeded.2 hs.succeeded, promised.2 hs.promised, met.2 hs.met,
      everywhere.2 hs.everywhere⟩

theorem preimage_prune : Set.preimage h.states (T'.prune X) = T.prune (Set.preimage h.states X) :=
  Set.ext fun s => h.survives_iff hT X s

theorem preimage_pruned (n : Nat) :
    Set.preimage h.states (T'.prune^[n] Set.univ) = T.prune^[n] Set.univ :=
  preimage_iterate (h.preimage_prune hT) n Set.univ

theorem removals_eq : T'.removals = T.removals := by
  refine congrArg sInf (Set.ext fun n => ?_)
  rw [Set.mem_ofPred_eq, Set.mem_ofPred_eq, ← h.preimage_pruned hT n,
    ← h.preimage_pruned hT (n + 1)]
  exact h.states.surjective.preimage_subset_preimage_iff.symm

theorem effort_eq : T'.effort X = T.effort (Set.preimage h.states X) := by
  refine congrArg₂ (· + ·) ?_ ?_
  · rw [(h.untils_perm.map _).sum_eq, List.map_map]
    refine congrArg List.sum (List.map_congr_left fun r hr => ?_)
    obtain ⟨p, q⟩ := r
    obtain ⟨hp, hq⟩ := hT.until (mem_untils.1 hr)
    exact stage_eq (h.preimage_pathStep hT X hp hq)
  · rw [(h.releases_perm.map _).sum_eq, List.map_map]
    refine congrArg List.sum (List.map_congr_left fun r hr => ?_)
    obtain ⟨p, q⟩ := r
    obtain ⟨hp, hq⟩ := hT.release (mem_releases.1 hr)
    show stage (T'.treeStep X (p.mapNames π).negate (q.mapNames π).negate) = _
    rw [Formula.negate_mapNames, Formula.negate_mapNames]
    exact stage_eq (h.preimage_treeStep hT X hp.negate hq.negate)

theorem questions_eq : T'.questions = T.questions := by
  rw [questions, questions, h.removals_eq hT, h.loops_eq]
  simp only [h.effort_eq hT, h.preimage_pruned hT]

/-- A true report of the one tableau is a true report of the other. -/
theorem trueReport_iff (report : Report) : T'.TrueReport report ↔ T.TrueReport report := by
  have satisfiable : (∃ t ∈ T'.prune^[T'.removals + 1] Set.univ, T'.Satisfies t T'.normalized) ↔
      ∃ t ∈ T.prune^[T.removals + 1] Set.univ, T.Satisfies t T.normalized := by
    rw [h.removals_eq hT, h.normalized, h.states.surjective.exists]
    refine exists_congr fun t => and_congr ?_ (h.satisfies_iff hT.decides t)
    exact Set.ext_iff.1 (h.preimage_pruned hT (T.removals + 1)) t
  constructor
  · intro hr
    exact ⟨hr.satisfiable_iff.trans satisfiable, hr.iterations.trans (by rw [h.removals_eq hT]),
      hr.queries.trans (h.questions_eq hT)⟩
  · intro hr
    exact ⟨hr.satisfiable_iff.trans satisfiable.symm, hr.iterations.trans (by rw [h.removals_eq hT]),
      hr.queries.trans (h.questions_eq hT).symm⟩

end Renames

/-! ## 4. Reports -/

/-- Every check with an engine that tells the truth reports this, in whatever time, if the run is not
    called off and the engine is ready. -/
def AlwaysReports (T : Tableau) (satisfiable : Bool) (iterations queries : Nat) : Prop :=
  ∀ {σ : Type} (engine : Engine σ) (ready : σ → Prop), engine.Truthful ready →
    ∀ rounds, T.roundBound ≤ rounds → ∀ s : Session σ, ready s.engine → s.cancelled = false →
      ∃ report s', (T.checkWithin engine rounds).run.run s = (.ok report, s') ∧
        report.satisfiable = satisfiable ∧ report.iterations = iterations ∧
        report.queries = queries

theorem alwaysReports_of_trueReport {T : Tableau} (hT : T.Saturated) {satisfiable : Bool}
    {iterations queries : Nat} (h : ∀ report, T.TrueReport report →
      report.satisfiable = satisfiable ∧ report.iterations = iterations ∧
      report.queries = queries) : T.AlwaysReports satisfiable iterations queries := by
  intro σ engine ready he rounds hr s hs hc
  obtain ⟨report, s', hrun, hreport, -, -⟩ := exists_trueReport hT he hr hs hc
  exact ⟨report, s', hrun, h report hreport⟩

/-- **Reports do not depend on names.** Let the names of a formula without quantifiers be replaced by
    any others that are apart from each other, the constant by itself and no other name by the
    constant. Then both formulas have a tableau, and the checks of both report the same verdict,
    the same number of rounds and the same number of questions. -/
theorem reports_agree_renamed {f : Formula} (hf : f.isTemporal = true) {r : String → String}
    (inj : ∀ x ∈ f.names, ∀ y ∈ f.names, r x = r y → x = y)
    (constant : ∀ x ∈ f.names, r x = Formula.trueName ↔ x = Formula.trueName) :
    ∃ T T', ofFormula f = .ok T ∧ ofFormula (f.mapNames r) = .ok T' ∧
      ∃ satisfiable iterations queries, T.AlwaysReports satisfiable iterations queries ∧
        T'.AlwaysReports satisfiable iterations queries := by
  classical
  obtain ⟨π, hπ, e⟩ := Formula.exists_perm inj constant
  obtain ⟨T, hT, -, hsat⟩ := exists_ofFormula hf
  obtain ⟨T', hT', renames⟩ := exists_renames hπ hT
  have hsat' : T'.Saturated :=
    (saturated_of_ofFormula ((Formula.isTemporal_mapNames π f).trans hf) hT').2
  have reported : ∀ report, T.TrueReport report →
      report.satisfiable =
        decide (∃ t ∈ T.prune^[T.removals + 1] Set.univ, T.Satisfies t T.normalized) ∧
      report.iterations = T.removals + 1 ∧ report.queries = T.questions := by
    intro report h
    refine ⟨?_, h.iterations, h.queries⟩
    rw [Bool.eq_iff_iff, h.satisfiable_iff, decide_eq_true_iff]
  refine ⟨T, T', hT, e ▸ hT', _, _, _, alwaysReports_of_trueReport hsat reported,
    alwaysReports_of_trueReport hsat' fun report h => ?_⟩
  exact reported report ((renames.trueReport_iff hsat report).1 h)

/-- The name of the instance may be that of a variable of the check, and another engine be asked. -/
theorem reports_agree_variable : ∃ T' report report' s s',
    ofFormula (.af (.atom "v_0")) = .ok T' ∧
    (atLastTableau.check Engine.diagram).run.run { engine := {} } = (.ok report, s) ∧
    (T'.check Engine.expansion.toEngine).run.run { engine := {} } = (.ok report', s') ∧
    report.satisfiable = report'.satisfiable ∧ report.iterations = report'.iterations ∧
    report.queries = report'.queries := by
  obtain ⟨T, T', hT, hT', _, _, _, reports, reports'⟩ := reports_agree_renamed (f := atLast) rfl
    (fun x hx y hy _ => (List.mem_singleton.1 hx).trans (List.mem_singleton.1 hy).symm)
    (show ∀ x ∈ atLast.names, (fun _ => "v_0") x = Formula.trueName ↔ x = Formula.trueName by decide)
  rw [ofFormula_atLast] at hT
  cases hT
  obtain ⟨report, s, hrun, rfl, rfl, rfl⟩ :=
    reports Engine.diagram _ Engine.truthful_diagram _ (Nat.le_refl _) { engine := {} } trivial rfl
  obtain ⟨report', s', hrun', hs, hi, hq⟩ :=
    reports' Engine.expansion.toEngine _ Engine.truthful_expansion _ (Nat.le_refl _)
      { engine := {} } trivial rfl
  exact ⟨T', report, report', s, s', hT', hrun, hrun', hs.symm, hi.symm, hq.symm⟩

end Tableau

end CtlTableau
