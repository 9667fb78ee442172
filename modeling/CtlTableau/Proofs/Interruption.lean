import CtlTableau.Proofs.Dialogue

/-!
# Runs that others call off

Whoever shares the flag of a run may call it off, at any time. A `Course` of a dialogue is a run of
it, one step after another, that may be called off before every step: also on the way of a question
from the poll of the flag to the call of the engine, and while the engine works, which may give any of
a number of replies. It records what somebody sees who looks at the flag, at the polls and at the
engine.

The flag is polled before a question is admitted, and not again before the engine is called. So no
question is admitted once the flag is up (`Course.apart`), and from then on the flag stays up
(`Course.cancelled_iff`); but a question that was admitted before is still put to the engine. This is
the only call that may start too late (`Course.late`).

Main statement: `Course.stops`.
-/

namespace CtlTableau

/-- What replies may come back to a question that is put to an engine with these numbers left, this
    state of the flag and this state of the engine. -/
abbrev Replies (σ : Type) : Type := Formula → Tickets → Bool → σ → Reply σ → Prop

/-- An engine has one reply to a question. -/
def Engine.replies {σ : Type} (engine : Engine σ) : Replies σ :=
  fun f t flag s reply => reply = engine.decide f t flag s

namespace Tableau

open Run Dialogue

variable {σ α β : Type}

/-! ## 1. Courses -/

/-- What happens to the flag and to the engine. -/
inductive Happening where
  /-- Somebody else calls the run off. -/
  | raised
  /-- A poll before a question finds the flag down. -/
  | admitted (f : Formula)
  /-- A call of the engine starts, with this state of the flag. -/
  | started (f : Formula) (flag : Bool)
  /-- A call of the engine returns, and leaves this state of the flag. -/
  | returned (f : Formula) (answer : Except Fault Bool) (flag : Bool)

namespace Happening

def isAdmission : Happening → Bool
  | .admitted _ => true
  | _ => false

def isStart : Happening → Bool
  | .started _ _ => true
  | _ => false

/-- Whether the engine says yes. -/
def isYes : Happening → Bool
  | .returned _ (.ok b) _ => b
  | _ => false

/-- Whether the run is called off then, by somebody else or during a call. -/
def raises : Happening → Bool
  | .raised => true
  | .returned _ _ flag => flag
  | _ => false

end Happening

/-- How far a question is on its way. The flag was polled before. -/
inductive Phase where
  | counting
  | noting
  | starting
  /-- The engine was called with this state of the flag. -/
  | waiting (flag : Bool)

/-- Where a run of a dialogue is. -/
inductive Point (α : Type) where
  | before (d : Dialogue α)
  /-- A question is on its way. -/
  | asking (phase : Phase) (f : Formula) (k : Bool → Dialogue α)

/-- A run from a point on in which the flag may be raised before any step. -/
inductive Course (T : Tableau) (replies : Replies σ) :
    Point α → Session σ → List Happening → Except Halt α → Session σ → Prop where
  | raise {x : Point α} {s s' : Session σ} {es : List Happening} {r : Except Halt α}
      (rest : Course T replies x { s with cancelled := true } es r s') :
      Course T replies x s (.raised :: es) r s'
  | done (a : α) (s : Session σ) : Course T replies (.before (.done a)) s [] (.ok a) s
  | stop (h : Halt) (s : Session σ) : Course T replies (.before (.stop h)) s [] (.error h) s
  | proceed {d : Dialogue α} {s s' : Session σ} {es : List Happening} {r : Except Halt α}
      (go : (Run.proceed : Run σ Unit).run.run s = (.ok (), s))
      (rest : Course T replies (.before d) s es r s') :
      Course T replies (.before (.proceed d)) s es r s'
  | off {d : Dialogue α} {s : Session σ} {h : Halt}
      (halt : (Run.proceed : Run σ Unit).run.run s = (.error h, s)) :
      Course T replies (.before (.proceed d)) s [] (.error h) s
  | fresh {k : SymbolicState → Dialogue α} {u : SymbolicState} {s s₁ s' : Session σ}
      {es : List Happening} {r : Except Halt α}
      (made : (T.freshState : Run σ SymbolicState).run.run s = (.ok u, s₁))
      (rest : Course T replies (.before (k u)) s₁ es r s') :
      Course T replies (.before (.fresh k)) s es r s'
  | build {d : Dialogue α} {s s' : Session σ} {es : List Happening} {r : Except Halt α}
      (f : Formula) (rest : Course T replies (.before d) s es r s') :
      Course T replies (.before (.build f d)) s es r s'
  | note {d : Dialogue α} {s s₁ s' : Session σ} {es : List Happening} {r : Except Halt α}
      {x : Record} (noted : (Run.note x : Run σ Unit).run.run s = (.ok (), s₁))
      (rest : Course T replies (.before d) s₁ es r s') :
      Course T replies (.before (.note x d)) s es r s'
  | pass {f : Formula} {k : Bool → Dialogue α} {s s' : Session σ} {es : List Happening}
      {r : Except Halt α} (go : (Run.proceed : Run σ Unit).run.run s = (.ok (), s))
      (rest : Course T replies (.asking .counting f k) s es r s') :
      Course T replies (.before (.ask f k)) s (.admitted f :: es) r s'
  | refuse {f : Formula} {k : Bool → Dialogue α} {s : Session σ} {h : Halt}
      (halt : (Run.proceed : Run σ Unit).run.run s = (.error h, s)) :
      Course T replies (.before (.ask f k)) s [] (.error h) s
  | count {f : Formula} {k : Bool → Dialogue α} {s s₁ s' : Session σ} {es : List Happening}
      {r : Except Halt α} (counted : (Run.count : Run σ Unit).run.run s = (.ok (), s₁))
      (rest : Course T replies (.asking .noting f k) s₁ es r s') :
      Course T replies (.asking .counting f k) s es r s'
  | record {f : Formula} {k : Bool → Dialogue α} {s s₁ s' : Session σ} {es : List Happening}
      {r : Except Halt α}
      (noted : (Run.note (.query s.queries f.size) : Run σ Unit).run.run s = (.ok (), s₁))
      (rest : Course T replies (.asking .starting f k) s₁ es r s') :
      Course T replies (.asking .noting f k) s es r s'
  | start {f : Formula} {k : Bool → Dialogue α} {s s' : Session σ} {es : List Happening}
      {r : Except Halt α} (rest : Course T replies (.asking (.waiting s.cancelled) f k) s es r s') :
      Course T replies (.asking .starting f k) s (.started f s.cancelled :: es) r s'
  | reply {f : Formula} {k : Bool → Dialogue α} {s s' : Session σ} {es : List Happening}
      {r : Except Halt α} {flag b : Bool} {reply : Reply σ}
      (possible : replies f s.tickets flag s.engine reply) (answer : reply.answer = .ok b)
      (rest : Course T replies (.before (k b)) (s.heed reply) es r s') :
      Course T replies (.asking (.waiting flag) f k) s
        (.returned f (.ok b) (s.heed reply).cancelled :: es) r s'
  | fail {f : Formula} {k : Bool → Dialogue α} {s : Session σ} {flag : Bool} {e : Fault}
      {reply : Reply σ} (possible : replies f s.tickets flag s.engine reply)
      (answer : reply.answer = .error e) :
      Course T replies (.asking (.waiting flag) f k) s
        [.returned f (.error e) (s.heed reply).cancelled] (.error (.fault e)) (s.heed reply)
  | meter {k : Nat → Duration → Dialogue α} {s s' : Session σ} {es : List Happening}
      {r : Except Halt α} (rest : Course T replies (.before (k s.queries s.elapsed)) s es r s') :
      Course T replies (.before (.meter k)) s es r s'

variable {T : Tableau} {replies : Replies σ} {engine : Engine σ} {d : Dialogue α} {x : Point α}
  {s s₁ s' : Session σ} {es : List Happening} {r : Except Halt α}

/-! ## 2. Steps and the flag -/

/-- The run goes on as long as the flag is down. -/
theorem not_cancelled_of_proceed (go : (Run.proceed : Run σ Unit).run.run s = (.ok (), s)) :
    s.cancelled = false := by
  rw [run_proceed] at go
  cases hc : s.cancelled with
  | false => rfl
  | true =>
    rw [hc] at go
    cases go

theorem proceed_of_not_cancelled (hc : s.cancelled = false) :
    (Run.proceed : Run σ Unit).run.run s = (.ok (), s) := by
  rw [run_proceed, hc]
  rfl

theorem halt_of_cancelled (hc : s.cancelled = true) :
    (Run.proceed : Run σ Unit).run.run s = (.error (.fault .cancelled), s) := by
  rw [run_proceed, hc]
  rfl

/-- It ends at the next poll if the flag is up. -/
theorem eq_of_halt {h : Halt} (halt : (Run.proceed : Run σ Unit).run.run s = (.error h, s)) :
    h = .fault .cancelled ∧ s.cancelled = true := by
  rw [run_proceed] at halt
  cases hc : s.cancelled with
  | false =>
    rw [hc] at halt
    cases halt
  | true =>
    rw [hc] at halt
    cases halt
    exact ⟨rfl, rfl⟩

theorem cancelled_of_made {u : SymbolicState}
    (made : (T.freshState : Run σ SymbolicState).run.run s = (.ok u, s₁)) :
    s₁.cancelled = s.cancelled ∧ s₁.queries = s.queries := by
  rw [run_freshState] at made
  cases made
  exact ⟨rfl, rfl⟩

theorem cancelled_of_noted {x : Record}
    (noted : (Run.note x : Run σ Unit).run.run s = (.ok (), s₁)) :
    s₁.cancelled = s.cancelled ∧ s₁.queries = s.queries := by
  cases noted
  exact ⟨rfl, rfl⟩

theorem cancelled_of_counted (counted : (Run.count : Run σ Unit).run.run s = (.ok (), s₁)) :
    s₁.cancelled = s.cancelled ∧ s₁.queries = s.queries + 1 := by
  cases counted
  exact ⟨rfl, rfl⟩

/-- Nobody lowers the flag. -/
theorem cancelled_heed {reply : Reply σ} (hc : s.cancelled = true) :
    (s.heed reply).cancelled = true := by
  rw [Session.heed, hc, Bool.true_or]

/-! ## 3. What happens after the flag was raised -/

/-- Once the flag is up no question is admitted any more, and the flag stays up. -/
theorem Course.of_cancelled (course : Course T replies x s es r s') (hc : s.cancelled = true) :
    (∀ e ∈ es, e.isAdmission = false) ∧ s'.cancelled = true := by
  induction course with
  | raise _ ih =>
    obtain ⟨none, stays⟩ := ih rfl
    exact ⟨List.forall_mem_cons.2 ⟨rfl, none⟩, stays⟩
  | done => exact ⟨fun _ h => absurd h List.not_mem_nil, hc⟩
  | stop => exact ⟨fun _ h => absurd h List.not_mem_nil, hc⟩
  | proceed _ _ ih => exact ih hc
  | off => exact ⟨fun _ h => absurd h List.not_mem_nil, hc⟩
  | fresh made _ ih => exact ih ((cancelled_of_made made).1.trans hc)
  | build _ _ ih => exact ih hc
  | note noted _ ih => exact ih ((cancelled_of_noted noted).1.trans hc)
  | pass go =>
    rw [not_cancelled_of_proceed go] at hc
    cases hc
  | refuse => exact ⟨fun _ h => absurd h List.not_mem_nil, hc⟩
  | count counted _ ih => exact ih ((cancelled_of_counted counted).1.trans hc)
  | record noted _ ih => exact ih ((cancelled_of_noted noted).1.trans hc)
  | start _ ih =>
    obtain ⟨none, stays⟩ := ih hc
    exact ⟨List.forall_mem_cons.2 ⟨rfl, none⟩, stays⟩
  | reply _ _ _ ih =>
    obtain ⟨none, stays⟩ := ih (cancelled_heed hc)
    exact ⟨List.forall_mem_cons.2 ⟨rfl, none⟩, stays⟩
  | fail => exact ⟨List.forall_mem_singleton.2 rfl, cancelled_heed hc⟩
  | meter _ ih => exact ih hc

/-- **No question is admitted once the flag is up**, whoever raised it. -/
theorem Course.apart (course : Course T replies x s es r s') :
    es.Pairwise fun e e' => e.raises = true → e'.isAdmission = false := by
  induction course with
  | raise rest ih =>
    exact List.pairwise_cons.2 ⟨fun e he _ => (rest.of_cancelled rfl).1 e he, ih⟩
  | done => exact .nil
  | stop => exact .nil
  | proceed _ _ ih => exact ih
  | off => exact .nil
  | fresh _ _ ih => exact ih
  | build _ _ ih => exact ih
  | note _ _ ih => exact ih
  | pass _ _ ih => exact List.pairwise_cons.2 ⟨fun _ _ => nofun, ih⟩
  | refuse => exact .nil
  | count _ _ ih => exact ih
  | record _ _ ih => exact ih
  | start _ ih => exact List.pairwise_cons.2 ⟨fun _ _ => nofun, ih⟩
  | reply _ _ rest ih =>
    exact List.pairwise_cons.2 ⟨fun e he up => (rest.of_cancelled up).1 e he, ih⟩
  | fail => exact List.pairwise_singleton _ _
  | meter _ ih => exact ih

/-- The flag is up at the end if it was at the start or was raised on the way. -/
theorem Course.cancelled_iff (course : Course T replies x s es r s') :
    s'.cancelled = true ↔ s.cancelled = true ∨ ∃ e ∈ es, e.raises = true := by
  induction course with
  | raise rest ih =>
    exact iff_of_true (rest.of_cancelled rfl).2 (Or.inr ⟨_, List.mem_cons_self, rfl⟩)
  | done => simp
  | stop => simp
  | proceed _ _ ih => exact ih
  | off => simp
  | fresh made _ ih => rw [ih, (cancelled_of_made made).1]
  | build _ _ ih => exact ih
  | note noted _ ih => rw [ih, (cancelled_of_noted noted).1]
  | pass _ _ ih => simp [ih, Happening.raises]
  | refuse => simp
  | count counted _ ih => rw [ih, (cancelled_of_counted counted).1]
  | record noted _ ih => rw [ih, (cancelled_of_noted noted).1]
  | start _ ih => simp [ih, Happening.raises]
  | reply => simp_all [Session.heed, Happening.raises, or_assoc]
  | fail => simp [Session.heed, Happening.raises]
  | meter _ ih => exact ih

/-- The question that was admitted and is still to be put to the engine. -/
def Point.pending? : Point α → Option Formula
  | .before _ => none
  | .asking (.waiting _) _ _ => none
  | .asking _ f _ => some f

/-- What is found in a list, but not in its first place, is found behind it. -/
theorem exists_of_cons_eq_append {a b : α} {l l₁ l₂ : List α} (h : a :: l = l₁ ++ b :: l₂)
    (ne : b ≠ a) : ∃ l₁', l₁ = a :: l₁' ∧ l = l₁' ++ b :: l₂ :=
  (List.cons_eq_append_iff.1 h).resolve_left fun ⟨_, h⟩ => ne (List.cons.inj h).1

/-- After these events a call may start with this state of the flag: there was the poll for its
    question, and nothing since but that the flag was raised. -/
def Polled (es₁ : List Happening) (f : Formula) (flag : Bool) : Prop :=
  ∃ es₀ rs, es₁ = es₀ ++ .admitted f :: rs ∧ (∀ e ∈ rs, e = .raised) ∧ flag = !rs.isEmpty

theorem Polled.cons {f : Formula} {flag : Bool} (h : Polled es f flag) (e : Happening) :
    Polled (e :: es) f flag := by
  obtain ⟨es₀, rs, rfl, h⟩ := h
  exact ⟨e :: es₀, rs, rfl, h⟩

/-- **Every call follows the poll for its question.** If the question is on its way already, there was
    no poll in this course. -/
theorem Course.polled (course : Course T replies x s es r s') {es₁ es₂ : List Happening}
    {f : Formula} {flag : Bool} (split : es = es₁ ++ .started f flag :: es₂) :
    Polled es₁ f flag ∨
    x.pending? = some f ∧ (∀ e ∈ es₁, e = .raised) ∧ flag = (s.cancelled || !es₁.isEmpty) := by
  have nothing : ∀ {es₁ : List Happening}, [] ≠ es₁ ++ .started f flag :: es₂ := fun h =>
    List.append_ne_nil_of_right_ne_nil _ (List.cons_ne_nil _ _) h.symm
  induction course generalizing es₁ with
  | done | stop | off | refuse => exact absurd split nothing
  | proceed _ _ ih | fresh _ _ ih | build _ _ ih | note _ _ ih =>
    exact (ih split).imp_right fun h => nomatch h.1
  | meter _ ih => exact (ih split).imp_right fun h => nomatch h.1
  | raise _ ih =>
    obtain ⟨es₁, rfl, rfl⟩ := exists_of_cons_eq_append split nofun
    rcases ih rfl with h | ⟨pending, only, up⟩
    · exact .inl (h.cons _)
    · exact .inr ⟨pending, List.forall_mem_cons.2 ⟨rfl, only⟩, by simpa using up⟩
  | pass go _ ih =>
    obtain ⟨es₁, rfl, rfl⟩ := exists_of_cons_eq_append split nofun
    rcases ih rfl with h | ⟨pending, only, up⟩
    · exact .inl (h.cons _)
    · cases pending
      rw [not_cancelled_of_proceed go, Bool.false_or] at up
      exact .inl ⟨[], es₁, rfl, only, up⟩
  | count counted _ ih =>
    rw [(cancelled_of_counted counted).1] at ih
    exact ih split
  | record noted _ ih =>
    rw [(cancelled_of_noted noted).1] at ih
    exact ih split
  | start _ ih =>
    cases es₁ with
    | nil =>
      cases split
      exact .inr ⟨rfl, fun _ h => absurd h List.not_mem_nil, by simp⟩
    | cons e es₁ =>
      obtain ⟨rfl, rfl⟩ := List.cons.inj split
      exact .inl (((ih rfl).resolve_right nofun).cons _)
  | reply _ _ _ ih =>
    obtain ⟨es₁, rfl, rfl⟩ := exists_of_cons_eq_append split nofun
    exact .inl (((ih rfl).resolve_right nofun).cons _)
  | fail =>
    obtain ⟨es₁, -, split⟩ := exists_of_cons_eq_append split nofun
    exact absurd split nothing

/-- Where a list that ends with one member and others after it is cut in a place behind the member. -/
theorem append_eq_of_not_mem {a : α} {l l' l₀ rs : List α} (h : l ++ l' = l₀ ++ a :: rs)
    (ha : a ∉ l') : ∃ rs₁, l = l₀ ++ a :: rs₁ ∧ rs = rs₁ ++ l' := by
  rcases List.append_eq_append_iff.1 h with ⟨as, -, e⟩ | ⟨as, e, e'⟩
  · exact absurd (e ▸ List.mem_append_right as List.mem_cons_self) ha
  · cases as with
    | nil =>
      rw [List.nil_append] at e'
      exact absurd (e' ▸ List.mem_cons_self) ha
    | cons b as =>
      obtain ⟨rfl, rfl⟩ := List.cons.inj e'
      exact ⟨as, e, rfl⟩

/-- A call starts after this event that was about to start: there is nothing but raises between the
    poll for its question and its start, this event among them. It starts with the flag up, and no
    call starts after it. -/
def OneLate (es₁ : List Happening) (e : Happening) (es₂ : List Happening) : Prop :=
  ∃ es₀ f rs₁ rs₂ es₃, es₁ = es₀ ++ .admitted f :: rs₁ ∧ es₂ = rs₂ ++ .started f true :: es₃ ∧
    (∀ e' ∈ rs₁ ++ e :: rs₂, e' = .raised) ∧ ∀ e' ∈ es₃, e'.isStart = false

/-- Where a call starts. -/
theorem exists_start {e : Happening} (mem : e ∈ es) (call : e.isStart = true) :
    ∃ es₁ f flag es₂, es = es₁ ++ .started f flag :: es₂ := by
  obtain ⟨es₁, es₂, rfl⟩ := List.append_of_mem mem
  cases e with
  | started f flag => exact ⟨es₁, f, flag, es₂, rfl⟩
  | _ => cases call

/-- **No call starts after the flag was raised, but for one** that was about to start. -/
theorem Course.late (course : Course T replies (.before d) s es r s') {es₁ es₂ : List Happening}
    {e : Happening} (split : es = es₁ ++ e :: es₂) (up : e.raises = true) :
    (∀ e' ∈ es₂, e'.isStart = false) ∨ OneLate es₁ e es₂ := by
  have polls := course.apart
  rw [split] at polls
  have unpolled : ∀ {f}, .admitted f ∉ e :: es₂ := fun h => by
    rcases List.mem_cons.1 h with rfl | h
    · cases up
    · exact absurd ((List.pairwise_cons.1 (List.pairwise_append.1 polls).2.1).1 _ h up) nofun
  -- a call after it was admitted before it
  have early : ∀ {f flag us vs}, es₂ = us ++ .started f flag :: vs → ∃ es₀ rs,
      es₁ = es₀ ++ .admitted f :: rs ∧ (∀ e' ∈ rs ++ e :: us, e' = .raised) ∧ flag = true := by
    rintro f flag us vs rfl
    have split' : es = (es₁ ++ e :: us) ++ .started f flag :: vs := by
      rw [split, List.append_assoc, List.cons_append]
    obtain ⟨es₀, rs, before, only, rfl⟩ := (course.polled split').resolve_right nofun
    obtain ⟨rs₁, rfl, rfl⟩ := append_eq_of_not_mem before fun h =>
      unpolled (List.cons_subset_cons e (List.subset_append_left us _) h)
    refine ⟨es₀, rs₁, rfl, only, ?_⟩
    cases rs₁ <;> rfl
  by_cases call : ∃ e' ∈ es₂, e'.isStart = true
  · obtain ⟨e', mem, call⟩ := call
    obtain ⟨us, f, flag, vs, h⟩ := exists_start mem call
    obtain ⟨es₀, rs, before, only, rfl⟩ := early h
    refine .inr ⟨es₀, f, rs, us, vs, before, h, only, fun e' he' =>
      Bool.eq_false_iff.2 fun again => ?_⟩
    -- before a second call there would be another one, and not only raises
    obtain ⟨us', g, flag', vs', rfl⟩ := exists_start he' again
    have h' : es₂ = (us ++ .started f true :: us') ++ .started g flag' :: vs' := by
      rw [h, List.append_assoc, List.cons_append]
    obtain ⟨_, _, -, only', -⟩ := early h'
    exact nomatch only' (.started f true) (by simp)
  · exact .inl fun e' he' => Bool.eq_false_iff.2 fun h => call ⟨e', he', h⟩

/-- How the events of a run go on after the flag was raised, where `up` says whether it was up from the
    start. -/
structure Stops (up : Bool) (es : List Happening) : Prop where
  /-- No poll for a question passes with the flag up. -/
  polls : es.Pairwise fun e e' => e.raises = true → e'.isAdmission = false
  /-- Every call follows a poll of its own, and starts with the flag up only if it was raised in
      between. -/
  polled : ∀ es₁ f flag es₂, es = es₁ ++ .started f flag :: es₂ → Polled es₁ f flag
  /-- No call starts after the flag was raised, but for one that was about to start. -/
  late : ∀ es₁ e es₂, es = es₁ ++ e :: es₂ → e.raises = true →
    (∀ e' ∈ es₂, e'.isStart = false) ∨ OneLate es₁ e es₂
  /-- If it was raised during a call, no call starts after this one. -/
  during : ∀ es₁ f flag rs e es₂, es = es₁ ++ .started f flag :: (rs ++ e :: es₂) →
    (∀ e' ∈ rs, e' = .raised) → e.raises = true → ∀ e' ∈ es₂, e'.isStart = false
  /-- If it was up from the start, no poll passes and no call starts. -/
  start : up = true → ∀ e ∈ es, e.isAdmission = false ∧ e.isStart = false

/-- **Calling a run off stops it**: from then on no question is admitted. -/
theorem Course.stops (course : Course T replies (.before d) s es r s') : Stops s.cancelled es where
  polls := course.apart
  polled _ _ _ _ split := (course.polled split).resolve_right nofun
  late _ _ _ split up := course.late split up
  during es₁ f flag rs e es₂ split only up := by
    have split' : es = (es₁ ++ .started f flag :: rs) ++ e :: es₂ := by
      rw [split, List.append_assoc, List.cons_append]
    refine (course.late split' up).resolve_right fun ⟨es₀, g, rs₁, _, _, before, _, only', _⟩ => ?_
    have unpolled : .admitted g ∉ .started f flag :: rs := fun h => by
      cases only _ ((List.mem_cons.1 h).resolve_left nofun)
    -- the call would be one of the raises after a poll
    obtain ⟨as, -, rfl⟩ := append_eq_of_not_mem before unpolled
    cases only' (.started f flag) (by simp)
  start up e he := by
    obtain ⟨unpolled, -⟩ := course.of_cancelled up
    refine ⟨unpolled e he, Bool.eq_false_iff.2 fun call => ?_⟩
    obtain ⟨es₁, f, flag, es₂, split⟩ := exists_start he call
    obtain ⟨es₀, rs, rfl, -⟩ := (course.polled split).resolve_right nofun
    cases unpolled (.admitted f) (by simp [split])

end Tableau

end CtlTableau
