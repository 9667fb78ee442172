import CtlTableau.Proofs.Expansion
import CtlTableau.Tableau

/-!
# The closure answers what the expansion laws ask

A tableau state decides the positive closure of a normalized formula. Every normal formula has one,
and no other formula does (`isNormal_of_elementaryList`). It is saturated: the truth of the formula
itself, and that of whatever a member promises of a successor, asks for members only
(`exists_positiveClosure`). The promised formulas are not all subformulas: an "until" on all paths
makes its closure promise a "release" of the negations.

`Tableau.Saturated` is what a tableau has from its closure, and all that its runs rely on.
-/

namespace CtlTableau

namespace Formula

/-! ## 1. Elementary formulas of a normal formula -/

/-- Whatever a member promises of a successor is normal and asks for members only. -/
def KeepsPromises (E : Formula → Prop) : Prop :=
  ∀ g, E (.ex g) → g.IsNormal ∧ g.Within E

/-- The elementary formulas of `f` can be collected, `f` asks for no other, and they keep their
    promises. -/
def Collects (f : Formula) : Prop :=
  ∃ es, f.elementaryList = .ok es ∧ f.Within (· ∈ es) ∧ KeepsPromises (· ∈ es)

theorem keepsPromises_append {es es' : List Formula} (h : KeepsPromises (· ∈ es))
    (h' : KeepsPromises (· ∈ es')) : KeepsPromises (· ∈ es ++ es') := by
  intro g hg
  rcases List.mem_append.1 hg with hg | hg
  · exact ⟨(h g hg).1, (h g hg).2.mono fun _ _ he => List.mem_append_left _ he⟩
  · exact ⟨(h' g hg).1, (h' g hg).2.mono fun _ _ he => List.mem_append_right _ he⟩

/-- A "next" formula and its negation are new, and `g` is what one of the two promises. -/
theorem keepsPromises_withNegation {e g : Formula} {es : List Formula}
    (promised : ∀ h, .ex h ∈ withNegation e → h = g) (hg : g.IsNormal)
    (hw : g.Within (· ∈ withNegation e ++ es)) (hes : KeepsPromises (· ∈ es)) :
    KeepsPromises (· ∈ withNegation e ++ es) := by
  intro h hh
  rcases List.mem_append.1 hh with hh | hh
  · rw [promised h hh]
    exact ⟨hg, hw⟩
  · exact ⟨(hes h hh).1, (hes h hh).2.mono fun _ _ he => List.mem_append_right _ he⟩

theorem collects_atom (x : String) : (atom x).Collects := by
  refine ⟨_, rfl, ?_, fun g hg => ?_⟩
  · by_cases e : x = trueName <;> simp [Within, withNegation, e]
  · by_cases e : x = trueName <;> simp [withNegation, e] at hg

/-- The connectives add nothing to what their operands have. -/
theorem collects_connective {op : BinaryOp} {p q : Formula} (hop : carrier? op = none)
    (himp : op ≠ .imp)
    (asks : ∀ E, (binary op p q).Within E ↔ p.Within E ∧ q.Within E) (hp : p.Collects)
    (hq : q.Collects) : (binary op p q).Collects := by
  obtain ⟨es, he, hw, hk⟩ := hp
  obtain ⟨es', he', hw', hk'⟩ := hq
  refine ⟨es ++ es', by simp [elementaryList, himp, he, he', hop], (asks _).2 ⟨?_, ?_⟩,
    keepsPromises_append hk hk'⟩
  · exact hw.mono fun _ _ h => List.mem_append_left _ h
  · exact hw'.mono fun _ _ h => List.mem_append_right _ h

/-- "Next" adds itself and its negation; `g` is what one of the two promises. -/
theorem collects_next {op : UnaryOp} {p g : Formula} (hop : op = .ex ∨ op = .ax)
    (promised : ∀ h, .ex h ∈ withNegation (unary op p) ↔ h = g) (hg : g.IsNormal)
    (asks : ∀ E, (unary op p).Within E ↔ E (.ex g)) (asks' : ∀ E, g.Within E ↔ p.Within E)
    (hp : p.Collects) : (unary op p).Collects := by
  obtain ⟨es, he, hw, hk⟩ := hp
  refine ⟨withNegation (unary op p) ++ es, ?_, (asks _).2 ?_, ?_⟩
  · rcases hop with rfl | rfl <;> simp [elementaryList, he]
  · exact List.mem_append_left _ ((promised g).2 rfl)
  · refine keepsPromises_withNegation (fun h => (promised h).1) hg ((asks' _).2 ?_) hk
    exact hw.mono fun _ _ h => List.mem_append_right _ h

/-- An "until" or "release" adds the "next" formula that carries it, and the negation of this; `g` is
    what one of the two promises. -/
theorem collects_carried {op : BinaryOp} {next : UnaryOp} {p q g : Formula}
    (hop : carrier? op = some next)
    (promised : ∀ h, .ex h ∈ withNegation (unary next (binary op p q)) ↔ h = g) (hg : g.IsNormal)
    (asks : ∀ E, (binary op p q).Within E ↔ E (.ex g) ∧ p.Within E ∧ q.Within E)
    (asks' : ∀ E, g.Within E ↔ (binary op p q).Within E) (hp : p.Collects) (hq : q.Collects) :
    (binary op p q).Collects := by
  obtain ⟨es, he, hw, hk⟩ := hp
  obtain ⟨es', he', hw', hk'⟩ := hq
  have list : (binary op p q).elementaryList =
      .ok (withNegation (.unary next (.binary op p q)) ++ (es ++ es')) := by
    have himp : op ≠ .imp := fun e => by simp [e, carrier?] at hop
    simp [elementaryList, himp, he, he', hop]
  have whole : (binary op p q).Within
      (· ∈ withNegation (.unary next (.binary op p q)) ++ (es ++ es')) := by
    refine (asks _).2 ⟨?_, ?_, ?_⟩
    · exact List.mem_append_left _ ((promised g).2 rfl)
    · exact hw.mono fun _ _ h => List.mem_append_right _ (List.mem_append_left _ h)
    · exact hw'.mono fun _ _ h => List.mem_append_right _ (List.mem_append_right _ h)
  refine ⟨_, list, whole, ?_⟩
  exact keepsPromises_withNegation (fun h => (promised h).1) hg ((asks' _).2 whole)
    (keepsPromises_append hk hk')

/-- **Every normal formula has elementary formulas**, which answer all that they have to. -/
theorem IsNormal.collects {f : Formula} (h : f.IsNormal) : f.Collects := by
  induction h with
  | atom x => exact collects_atom x
  | not x =>
    obtain ⟨es, he, hw, hk⟩ := collects_atom x
    refine ⟨es, ?_, ⟨rfl, hw⟩, hk⟩
    simpa [elementaryList, isAtom] using he
  | ex hp ih =>
    exact collects_next (Or.inl rfl) (by simp [withNegation]) hp (fun _ => Iff.rfl)
      (fun _ => Iff.rfl) ih
  | ax hp ih =>
    exact collects_next (Or.inr rfl) (by simp [withNegation]) hp.negate (fun _ => Iff.rfl)
      (fun _ => within_negate_iff hp _) ih
  | and _ _ ihp ihq => exact collects_connective rfl (by decide) (fun _ => Iff.rfl) ihp ihq
  | or _ _ ihp ihq => exact collects_connective rfl (by decide) (fun _ => Iff.rfl) ihp ihq
  | eu hp hq ihp ihq =>
    exact collects_carried rfl (by simp [withNegation]) (hp.eu hq) (fun _ => Iff.rfl)
      (fun _ => Iff.rfl) ihp ihq
  | au hp hq ihp ihq =>
    exact collects_carried rfl (by simp [withNegation]) (hp.negate.er hq.negate)
      (fun _ => Iff.rfl) (fun _ => within_negate_iff (hp.au hq) _) ihp ihq
  | er hp hq ihp ihq =>
    exact collects_carried rfl (by simp [withNegation]) (hp.er hq) (fun _ => Iff.rfl)
      (fun _ => Iff.rfl) ihp ihq
  | ar hp hq ihp ihq =>
    exact collects_carried rfl (by simp [withNegation]) (hp.negate.eu hq.negate)
      (fun _ => Iff.rfl) (fun _ => within_negate_iff (hp.ar hq) _) ihp ihq

/-- What a "next" formula is collected from. -/
theorem exists_of_elementaryList_next {op : UnaryOp} {p : Formula} {es : List Formula}
    (hop : op = .ex ∨ op = .ax) (h : (unary op p).elementaryList = .ok es) :
    ∃ es', p.elementaryList = .ok es' ∧ es = withNegation (.unary op p) ++ es' := by
  cases hp : p.elementaryList with
  | error e => rcases hop with rfl | rfl <;> simp [elementaryList, hp] at h
  | ok es' =>
    refine ⟨es', rfl, ?_⟩
    rcases hop with rfl | rfl <;> simpa [elementaryList, hp] using h.symm

/-- What a formula with two arguments is collected from. -/
theorem exists_of_elementaryList_binary {op : BinaryOp} {p q : Formula} {es : List Formula}
    (h : (binary op p q).elementaryList = .ok es) :
    op ≠ .imp ∧ ∃ es₁ es₂, p.elementaryList = .ok es₁ ∧ q.elementaryList = .ok es₂ ∧
      es = (match carrier? op with
        | some next => withNegation (.unary next (.binary op p q))
        | none => []) ++ (es₁ ++ es₂) := by
  have himp : op ≠ .imp := by
    rintro rfl
    cases h
  rw [elementaryList, if_neg himp] at h
  cases hp : p.elementaryList with
  | error e => simp [hp] at h
  | ok es₁ =>
    cases hq : q.elementaryList with
    | error e => simp [hp, hq] at h
    | ok es₂ =>
      simp only [hp, hq, Except.ok.injEq] at h
      exact ⟨himp, es₁, es₂, rfl, rfl, h.symm⟩

/-- Only normal formulas have elementary formulas. -/
theorem isNormal_of_elementaryList {f : Formula} {es : List Formula}
    (h : f.elementaryList = .ok es) : f.IsNormal := by
  induction f generalizing es with
  | atom x => exact .atom x
  | unary op p ih =>
    cases op with
    | not =>
      cases p with
      | atom x => exact .not x
      | _ => cases h
    | ex =>
      obtain ⟨es', hp, -⟩ := exists_of_elementaryList_next (Or.inl rfl) h
      exact .ex (ih hp)
    | ax =>
      obtain ⟨es', hp, -⟩ := exists_of_elementaryList_next (Or.inr rfl) h
      exact .ax (ih hp)
    | _ => cases h
  | binary op p q ihp ihq =>
    obtain ⟨himp, es₁, es₂, hp, hq, -⟩ := exists_of_elementaryList_binary h
    have np := ihp hp
    have nq := ihq hq
    cases op with
    | and => exact .and np nq
    | or => exact .or np nq
    | imp => exact absurd rfl himp
    | eu => exact .eu np nq
    | au => exact .au np nq
    | er => exact .er np nq
    | ar => exact .ar np nq
  | quant k x p ih => cases h

/-- Quantifiers have no elementary formulas. -/
theorem isTemporal_of_elementaryList {f : Formula} {es : List Formula}
    (h : f.elementaryList = .ok es) : f.isTemporal = true :=
  (isNormal_of_elementaryList h).isTemporal

/-! ## 2. The positive closure -/

/-- The positive half of the closure keeps all that is asked for. -/
theorem exists_positiveClosure {f : Formula} (h : f.IsNormal) :
    ∃ E, f.positiveClosure = .ok E ∧ f.Within (· ∈ E) ∧ KeepsPromises (· ∈ E) := by
  obtain ⟨es, he, hw, hk⟩ := h.collects
  have mem : ∀ e, e.isPositiveElementary = true → e ∈ es →
      e ∈ (OrderedSet.ofList es).filter isPositiveElementary := fun e hpos hmem =>
    OrderedSet.mem_filter.2 ⟨OrderedSet.mem_ofList.2 hmem, hpos⟩
  refine ⟨_, by simp [positiveClosure, closure, he, Except.map], hw.mono mem, fun g hg => ?_⟩
  have hg' : .ex g ∈ es := OrderedSet.mem_ofList.1 (OrderedSet.mem_filter.1 hg).1
  exact ⟨(hk g hg').1, (hk g hg').2.mono mem⟩

end Formula

/-! ## 3. Tableaux -/

namespace Tableau

/-- The formula is normal, and every state of the tableau decides it. -/
structure Decides (T : Tableau) (g : Formula) : Prop where
  normal : g.IsNormal
  within : g.Within (· ∈ T.elementary)

/-- The states of the tableau decide its formula and all that a successor may be promised. -/
structure Saturated (T : Tableau) : Prop where
  decides : T.Decides T.normalized
  keeps : ∀ g, .ex g ∈ T.elementary → T.Decides g

variable {T : Tableau} {g p q : Formula}

theorem Decides.negate (h : T.Decides g) : T.Decides g.negate :=
  ⟨h.normal.negate, (Formula.within_negate_iff h.normal _).2 h.within⟩

theorem Decides.next (h : T.Decides g) (hg : .ex g ∈ T.elementary) : T.Decides (.ex g) :=
  ⟨.ex h.normal, hg⟩

/-- With an "until" its arguments are decided, and what carries it to successors. -/
theorem Decides.eu (h : T.Decides (.eu p q)) :
    .ex (.eu p q) ∈ T.elementary ∧ T.Decides p ∧ T.Decides q := by
  obtain ⟨hn, hex, hp, hq⟩ := h
  cases hn with
  | eu np nq => exact ⟨hex, ⟨np, hp⟩, nq, hq⟩

theorem Decides.au (h : T.Decides (.au p q)) :
    .ex (.er p.negate q.negate) ∈ T.elementary ∧ T.Decides p ∧ T.Decides q := by
  obtain ⟨hn, hex, hp, hq⟩ := h
  cases hn with
  | au np nq => exact ⟨hex, ⟨np, hp⟩, nq, hq⟩

/-- With a "release" its arguments are decided, and what carries it to successors. -/
theorem Decides.er (h : T.Decides (.er p q)) :
    .ex (.er p q) ∈ T.elementary ∧ T.Decides p ∧ T.Decides q := by
  obtain ⟨hn, hex, hp, hq⟩ := h
  cases hn with
  | er np nq => exact ⟨hex, ⟨np, hp⟩, nq, hq⟩

theorem Saturated.next (hT : T.Saturated) (h : .ex g ∈ T.elementary) : T.Decides (.ex g) :=
  (hT.keeps g h).next h

theorem Saturated.until (hT : T.Saturated) (h : .ex (.eu p q) ∈ T.elementary) :
    T.Decides p ∧ T.Decides q :=
  (hT.keeps _ h).eu.2

theorem Saturated.release (hT : T.Saturated) (h : .ex (.er p q) ∈ T.elementary) :
    T.Decides p ∧ T.Decides q :=
  (hT.keeps _ h).er.2

/-- **Every formula without quantifiers has a tableau**, and it is saturated. -/
theorem exists_ofFormula {f : Formula} (h : f.isTemporal = true) :
    ∃ T, ofFormula f = .ok T ∧ T.normalized = f.normalize ∧ T.Saturated := by
  have hn := Formula.isNormal_normalize h
  obtain ⟨E, hE, hw, hk⟩ := Formula.exists_positiveClosure hn
  refine ⟨⟨f.normalize, E⟩, ?_, rfl, ⟨hn, hw⟩, fun g hg => ⟨(hk g hg).1, (hk g hg).2⟩⟩
  simp [ofFormula, hE]

/-- A tableau by what its states decide: the positive formulas among those that are collected. -/
theorem ofFormula_of_collected {f : Formula} {es : List Formula} {E : OrderedSet Formula}
    (collected : f.normalize.elementaryList = .ok es)
    (members : ∀ g, g ∈ E ↔ g ∈ es ∧ g.isPositiveElementary = true) :
    ofFormula f = .ok ⟨f.normalize, E⟩ := by
  have positive : (OrderedSet.ofList es).filter Formula.isPositiveElementary = E :=
    OrderedSet.ext_mem fun g => by
      rw [OrderedSet.mem_filter, OrderedSet.mem_ofList]
      exact (members g).symm
  rw [ofFormula, Formula.positiveClosure, Formula.closure, collected, ← positive]
  rfl

/-- Only formulas without quantifiers have a tableau. -/
theorem isTemporal_of_ofFormula {f : Formula} (h : ofFormula f = .ok T) : f.isTemporal = true := by
  have collected : ∃ es, f.normalize.elementaryList = .ok es := by
    cases he : f.normalize.elementaryList with
    | ok es => exact ⟨es, rfl⟩
    | error e => simp [ofFormula, Formula.positiveClosure, Formula.closure, he, Except.map] at h
  obtain ⟨es, he⟩ := collected
  have temporal := Formula.isTemporal_of_elementaryList he
  rwa [Formula.normalize, Formula.nnf, Formula.isTemporal_signed, Formula.isTemporal_core]
    at temporal

theorem saturated_of_ofFormula {f : Formula} {T : Tableau} (h : f.isTemporal = true)
    (hT : ofFormula f = .ok T) : T.normalized = f.normalize ∧ T.Saturated := by
  obtain ⟨T', hT', hn, hs⟩ := exists_ofFormula h
  rw [hT] at hT'
  cases hT'
  exact ⟨hn, hs⟩

end Tableau

end CtlTableau
