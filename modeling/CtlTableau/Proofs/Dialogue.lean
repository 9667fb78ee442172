import CtlTableau.Proofs.Runs
import CtlTableau.Proofs.Variables
import Mathlib.Algebra.GroupWithZero.Nat
import Mathlib.Data.List.Forall2

/-!
# Runs as dialogues

A run is a function of the session, and what it does on the way cannot be read off the function. A
`Dialogue` is the run with every step laid open: which formulas it puts together, when it makes a
successor state, what it asks the engine and how it goes on after either answer. `Dialogue.run` is
what the dialogue does with an engine, and `Dialogue.events` what happens meanwhile.

`Dialogue.Ensures` says of a dialogue, for every engine at once, what it comes to. A dialogue that
ensures something

* stops early for want of rounds only, and never with a fault of its own;
* asks closed formulas of a simple shape only (`IsExistentialQuery`);
* puts no formula together that mentions a variable of a state that is made later.

Main statements: `Ensures.bind` and `Ensures.mapM`, by which dialogues are taken apart;
`Ensures.leads`, by which a run comes to what its dialogue ensures; `Ensures.orderly` and
`Ensures.ends`, which speak of the events and of the end of a run with any engine.
-/

namespace CtlTableau

namespace Tableau

open Run

/-! ## 1. Dialogues -/

/-- What happens in a run. -/
inductive Event where
  /-- A successor state was made. -/
  | fresh (u : SymbolicState)
  /-- A formula was put together. -/
  | built (f : Formula)
  /-- A formula was handed to the engine, and this came back. -/
  | asked (f : Formula) (answer : Except Fault Bool)

/-- A run with its steps laid open. -/
inductive Dialogue (α : Type) where
  | done (result : α)
  | stop (cause : Halt)
  /-- Goes on unless the run was called off. -/
  | proceed (rest : Dialogue α)
  /-- Makes a successor state. -/
  | fresh (rest : SymbolicState → Dialogue α)
  /-- Puts a formula together. -/
  | build (f : Formula) (rest : Dialogue α)
  | note (r : Record) (rest : Dialogue α)
  /-- Asks the engine. -/
  | ask (f : Formula) (rest : Bool → Dialogue α)
  /-- Looks up how many questions were asked, and how long they took. -/
  | meter (rest : Nat → Duration → Dialogue α)

namespace Dialogue

variable {α β γ : Type}

/-- Goes on with the result. -/
protected def bind : Dialogue α → (α → Dialogue β) → Dialogue β
  | .done a, g => g a
  | .stop h, _ => .stop h
  | .proceed d, g => .proceed (d.bind g)
  | .fresh k, g => .fresh fun u => (k u).bind g
  | .build f d, g => .build f (d.bind g)
  | .note r d, g => .note r (d.bind g)
  | .ask f k, g => .ask f fun b => (k b).bind g
  | .meter k, g => .meter fun n t => (k n t).bind g

instance : Monad Dialogue where
  pure := .done
  bind := .bind

theorem bind_done (d : Dialogue α) : d.bind .done = d := by
  induction d <;> simp_all only [Dialogue.bind]

theorem bind_bind (d : Dialogue α) (g : α → Dialogue β) (h : β → Dialogue γ) :
    (d.bind g).bind h = d.bind fun a => (g a).bind h := by
  induction d <;> simp_all only [Dialogue.bind]

instance : LawfulMonad Dialogue :=
  .mk' Dialogue bind_done (fun _ _ => rfl) bind_bind

/-! ## 2. What a dialogue does -/

variable {σ : Type} (T : Tableau) (engine : Engine σ)

/-- The run of a dialogue with an engine. -/
def run : Dialogue α → Run σ α
  | .done a => pure a
  | .stop h => throw h
  | .proceed d => do Run.proceed; d.run
  | .fresh k => do (k (← T.freshState)).run
  | .build _ d => d.run
  | .note r d => do Run.note r; d.run
  | .ask f k => do (k (← query engine f)).run
  | .meter k => do
    let s ← get
    (k s.queries s.elapsed).run

theorem run_bind (d : Dialogue α) (g : α → Dialogue β) :
    (d >>= g).run T engine = d.run T engine >>= fun a => (g a).run T engine := by
  show (d.bind g).run T engine = _
  induction d with
  | done a => simp only [Dialogue.bind, run, pure_bind]
  | stop h => rfl
  | _ => simp_all only [Dialogue.bind, run, bind_assoc]

theorem run_pure (a : α) : (pure a : Dialogue α).run T engine = pure a := rfl

theorem run_mapM (g : α → Dialogue β) (as : List α) :
    (as.mapM g).run T engine = as.mapM fun a => (g a).run T engine := by
  induction as with
  | nil => rfl
  | cons a as ih => simp only [List.mapM_cons, run_bind, run_pure, ih]

/-- The events of the rest of a run, where it goes on after a step. -/
def eventsAfter (step : Run σ α) (s : Session σ) (rest : α → Session σ → List Event) :
    List Event :=
  match (step.run.run s : Except Halt α × Session σ) with
  | (.ok a, s') => rest a s'
  | (.error _, _) => []

/-- The events of the run of a dialogue with an engine, from a session. -/
def events : Dialogue α → Session σ → List Event
  | .done _, _ => []
  | .stop _, _ => []
  | .proceed d, s => eventsAfter Run.proceed s fun _ => d.events
  | .fresh k, s => eventsAfter T.freshState s fun u s' => .fresh u :: (k u).events s'
  | .build f d, s => .built f :: d.events s
  | .note r d, s => eventsAfter (Run.note r) s fun _ => d.events
  | .ask f k, s =>
    -- the engine is not asked once the run was called off
    if s.cancelled then []
    else .asked f (engine.decide f s.tickets false s.engine).answer ::
      eventsAfter (query engine f) s fun b => (k b).events
  | .meter k, s => (k s.queries s.elapsed).events s

/-! ## 3. What a dialogue ensures -/

end Dialogue

/-- How far a run has come. -/
structure Stage where
  /-- All numbers drawn so far are below this one. -/
  drawn : Nat
  /-- The questions that were answered with yes. -/
  yes : Nat := 0
  /-- The questions that were answered with no. -/
  no : Nat := 0

namespace Stage

/-- After an answer that left this number to draw. -/
def answered (c : Stage) (drawn : Nat) : Bool → Stage
  | true => { c with drawn, yes := c.yes + 1 }
  | false => { c with drawn, no := c.no + 1 }

/-- The second stage comes after the first one, with so many answers of either kind in between. How
    often the engine says yes is known only if it tells the truth. -/
structure Takes (c : Stage) (truth : Prop) (c' : Stage) (yes no : Nat) : Prop where
  drawn : c.drawn ≤ c'.drawn
  yes : truth → c'.yes = c.yes + yes
  no : c'.no = c.no + no

variable {truth : Prop} {c c' c'' : Stage} {y y' n n' : Nat}

theorem Takes.refl (c : Stage) : c.Takes truth c 0 0 := ⟨Nat.le_refl _, fun _ => rfl, rfl⟩

theorem Takes.trans (h : c.Takes truth c' y n) (h' : c'.Takes truth c'' y' n') :
    c.Takes truth c'' (y + y') (n + n') where
  drawn := Nat.le_trans h.drawn h'.drawn
  yes ht := by rw [h'.yes ht, h.yes ht, Nat.add_assoc]
  no := by rw [h'.no, h.no, Nat.add_assoc]

theorem takes_drawn {k : Nat} (h : c.drawn ≤ k) : c.Takes truth { c with drawn := k } 0 0 :=
  ⟨h, fun _ => rfl, rfl⟩

theorem Takes.congr {z : Nat} (h : c.Takes truth c' y n) (e : truth → y = z) :
    c.Takes truth c' z n where
  drawn := h.drawn
  yes ht := e ht ▸ h.yes ht
  no := h.no

theorem drawn_answered (c : Stage) (k : Nat) (b : Bool) : (c.answered k b).drawn = k := by
  cases b <;> rfl

theorem takes_answered {k : Nat} (h : c.drawn ≤ k) (b : Bool) :
    c.Takes truth (c.answered k b) b.toNat (!b).toNat := by
  cases b <;> exact ⟨h, fun _ => rfl, rfl⟩

end Stage

/-- No state that is made from a number on has a variable that the formula mentions. -/
def Unused (T : Tableau) (k : Nat) (f : Formula) : Prop :=
  ∀ n, k ≤ n → ∀ x ∈ (T.successor n).names, x ∉ f.names

namespace Dialogue

/-- What a dialogue comes to from a stage, whatever numbers the engine draws meanwhile; if `truth`
    holds only true answers are considered, and if `sure` holds there are always rounds left. -/
def Ensures (T : Tableau) (truth sure : Prop) : Dialogue α → Stage → (α → Stage → Prop) → Prop
  | .done a, c, P => P a c
  | .stop h, _, _ => h = .outOfRounds ∧ ¬ sure
  | .proceed d, c, P => d.Ensures T truth sure c P
  | .fresh k, c, P => ∀ n, c.drawn ≤ n →
    (k (T.successor n)).Ensures T truth sure { c with drawn := n + 1 } P
  | .build f d, c, P => T.Unused c.drawn f ∧ d.Ensures T truth sure c P
  | .note _ d, c, P => d.Ensures T truth sure c P
  | .ask f k, c, P => f.IsExistentialQuery ∧ ∀ b, (truth → b = f.isValid) → ∀ n, c.drawn ≤ n →
    (k b).Ensures T truth sure (c.answered n b) P
  | .meter k, c, P => ∀ elapsed, (k (c.yes + c.no) elapsed).Ensures T truth sure c P

variable {T : Tableau} {truth sure : Prop} {c : Stage} {d : Dialogue α} {g : α → Dialogue β}
  {P P' : α → Stage → Prop} {Q : β → Stage → Prop}

/-- **One dialogue after another.** -/
theorem Ensures.bind (h : d.Ensures T truth sure c P)
    (hg : ∀ a c', P a c' → (g a).Ensures T truth sure c' Q) :
    (d >>= g).Ensures T truth sure c Q := by
  show (d.bind g).Ensures T truth sure c Q
  induction d generalizing c with
  | done a => exact hg a c h
  | stop cause => exact h
  | proceed d ih => exact ih h
  | fresh k ih => exact fun n hn => ih _ (h n hn)
  | build f d ih => exact ⟨h.1, ih h.2⟩
  | note r d ih => exact ih h
  | ask f k ih => exact ⟨h.1, fun b hb n hn => ih b (h.2 b hb n hn)⟩
  | meter k ih => exact fun t => ih _ t (h t)

theorem Ensures.mono (h : d.Ensures T truth sure c P) (hP : ∀ a c', P a c' → P' a c') :
    d.Ensures T truth sure c P' := by
  rw [← bind_pure d]
  exact h.bind fun a c' ha => hP a c' ha

/-- The same dialogue for every member of a list. What is said of the results may depend on the
    numbers drawn so far, and has to stay true when more are drawn. -/
theorem Ensures.mapM {R : Nat → α → β → Prop} {y n : α → Nat}
    (hR : ∀ k k' a b, k ≤ k' → R k a b → R k' a b) {as : List α}
    (hg : ∀ a ∈ as, ∀ c', c.drawn ≤ c'.drawn → (g a).Ensures T truth sure c' fun b c'' =>
      c'.Takes truth c'' (y a) (n a) ∧ R c''.drawn a b) :
    (as.mapM g).Ensures T truth sure c fun bs c' =>
      c.Takes truth c' (as.map y).sum (as.map n).sum ∧ List.Forall₂ (R c'.drawn) as bs := by
  induction as generalizing c with
  | nil => exact ⟨.refl c, .nil⟩
  | cons a as ih =>
    rw [List.mapM_cons]
    refine (hg a List.mem_cons_self c (Nat.le_refl _)).bind fun b c1 ⟨h1, hb⟩ => ?_
    refine (ih fun a' ha' c' h' => hg a' (List.mem_cons_of_mem _ ha') c'
      (Nat.le_trans h1.drawn h')).bind fun bs c2 ⟨h2, hbs⟩ => ?_
    refine ⟨?_, .cons (hR _ _ _ _ h2.drawn hb) hbs⟩
    rw [List.map_cons, List.map_cons, List.sum_cons, List.sum_cons]
    exact h1.trans h2

/-! ## 4. Runs come to what their dialogues ensure -/

variable {engine : Engine σ} {ready : σ → Prop} {s : Session σ}

/-- What an engine does in states from which it is `ready`: it only draws numbers, if `truth` holds it
    tells the truth, and if `sure` holds it answers and does not call the run off. -/
structure Backs (engine : Engine σ) (ready : σ → Prop) (truth sure : Prop) : Prop where
  draws : ∀ f t s, f.IsExistentialQuery → ready s →
    t.next ≤ (engine.decide f t false s).tickets.next
  stays : ∀ f t s, f.IsExistentialQuery → ready s → ready (engine.decide f t false s).engine
  truthful : truth → ∀ f t s b, f.IsExistentialQuery → ready s →
    (engine.decide f t false s).answer = .ok b → b = f.isValid
  answers : sure → ∀ f t s, f.IsExistentialQuery → ready s →
    ∃ b, (engine.decide f t false s).answer = .ok b
  persists : sure → ∀ f t s, f.IsExistentialQuery → ready s →
    (engine.decide f t false s).cancelled = false

/-- The session is at a stage. -/
structure At (ready : σ → Prop) (c : Stage) (s : Session σ) : Prop where
  ready : ready s.engine
  drawn : c.drawn = s.tickets.next
  queries : c.yes + c.no = s.queries

theorem run_freshState (T : Tableau) (s : Session σ) : (T.freshState (σ := σ)).run.run s =
    (.ok (T.successor s.tickets.next), { s with tickets := ⟨s.tickets.next + 1⟩ }) := by
  have h := T.make_successorName s.tickets.next
  rw [successorName] at h
  show (attempt (SymbolicState.make T.elementary (successorStem ++ toString s.tickets.next)) :
    Run σ SymbolicState).run.run _ = _
  rw [h]
  rfl

theorem leads_freshState (T : Tableau) (s : Session σ) :
    Run.Leads sure T.freshState s fun u s' =>
      u = T.successor s.tickets.next ∧ s' = { s with tickets := ⟨s.tickets.next + 1⟩ } :=
  leads_of_ok (run_freshState T s) ⟨Nat.le_succ _, fun _ h => h⟩ ⟨rfl, rfl⟩

/-- An engine that is ready gives an answer that may be given, and stays ready. -/
theorem leads_ask (he : Backs engine ready truth sure) {f : Formula} (hf : f.IsExistentialQuery)
    (hs : At ready c s) : Run.Leads sure (query engine f) s fun b s' =>
      (truth → b = f.isValid) ∧ c.drawn ≤ s'.tickets.next ∧
        At ready (c.answered s'.tickets.next b) s' := by
  have asks := leads_query (he.draws f s.tickets s.engine hf hs.ready)
    (fun h => he.answers h f s.tickets s.engine hf hs.ready)
    fun h => he.persists h f s.tickets s.engine hf hs.ready
  refine asks.mono fun b s' later h => ?_
  obtain ⟨ha, asked⟩ := h
  refine ⟨fun h => he.truthful h f _ _ b hf hs.ready ha, hs.drawn ▸ later.tickets, ?_, ?_, ?_⟩
  · rw [asked.state]
    exact he.stays f _ _ hf hs.ready
  · cases b <;> rfl
  · rw [asked.queries, ← hs.queries]
    cases b <;> simp only [Stage.answered] <;> omega

/-- **A run comes to what its dialogue ensures.** -/
theorem Ensures.leads (he : Backs engine ready truth sure) (h : d.Ensures T truth sure c P)
    (hs : At ready c s) : Run.Leads sure (d.run T engine) s fun a s' =>
      ∃ c', P a c' ∧ At ready c' s' := by
  induction d generalizing c s with
  | done a => exact leads_pure ⟨c, h, hs⟩
  | stop cause =>
    obtain ⟨rfl, hsure⟩ := h
    exact leads_throw hsure
  | proceed d ih =>
    refine leads_bind leads_proceed fun _ s' _ h' => ?_
    obtain ⟨rfl, -⟩ := h'
    exact ih h hs
  | fresh k ih =>
    refine leads_bind (leads_freshState T s) fun u s' _ h' => ?_
    obtain ⟨rfl, rfl⟩ := h'
    exact ih _ (h _ (Nat.le_of_eq hs.drawn)) ⟨hs.ready, rfl, hs.queries⟩
  | build f d ih => exact ih h.2 hs
  | note r d ih =>
    refine leads_bind (leads_note (P := fun _ s' => At ready c s') ?_) fun _ s' _ hs' => ih h hs'
    exact ⟨hs.ready, hs.drawn, hs.queries⟩
  | ask f k ih =>
    refine leads_bind (leads_ask he h.1 hs) fun b s' _ h' => ?_
    obtain ⟨truthful, drawn, hs'⟩ := h'
    exact ih b (h.2 b truthful _ drawn) hs'
  | meter k ih =>
    refine leads_bind (leads_of_ok (a := s) (P := fun a s' => a = s ∧ s' = s) rfl (.refl s)
      ⟨rfl, rfl⟩) fun _ _ _ h' => ?_
    obtain ⟨rfl, rfl⟩ := h'
    rw [← hs.queries]
    exact ih _ _ (h _) hs

/-! ## 5. Events and early ends -/

/-- What can be said of the events of a run in which numbers from `k` on are drawn. -/
structure Orderly (T : Tableau) (k : Nat) (es : List Event) : Prop where
  asked : ∀ f a, .asked f a ∈ es → f.IsExistentialQuery
  fresh : ∀ u, .fresh u ∈ es → ∃ n, k ≤ n ∧ u = T.successor n
  /-- The variables of a state occur in no formula that was put together before. -/
  unused : es.Pairwise fun e e' =>
    ∀ f u, e = .built f → e' = .fresh u → ∀ x ∈ u.names, x ∉ f.names

variable {k k' : Nat} {es : List Event}

theorem orderly_nil : Orderly T k [] :=
  ⟨fun _ _ h => absurd h List.not_mem_nil, fun _ h => absurd h List.not_mem_nil, .nil⟩

theorem Orderly.mono (h : Orderly T k' es) (hk : k ≤ k') : Orderly T k es where
  asked := h.asked
  fresh u hu := by
    obtain ⟨n, hn, e⟩ := h.fresh u hu
    exact ⟨n, Nat.le_trans hk hn, e⟩
  unused := h.unused

theorem Orderly.cons_fresh (h : Orderly T (k + 1) es) :
    Orderly T k (.fresh (T.successor k) :: es) where
  asked f a hf := h.asked f a (by simpa using hf)
  fresh u hu := by
    rcases List.mem_cons.1 hu with e | hu
    · cases e
      exact ⟨k, Nat.le_refl k, rfl⟩
    · exact (h.mono (Nat.le_succ k)).fresh u hu
  unused := List.pairwise_cons.2 ⟨fun _ _ _ _ e => (nomatch e), h.unused⟩

theorem Orderly.cons_built {f : Formula} (h : Orderly T k es) (hf : T.Unused k f) :
    Orderly T k (.built f :: es) where
  asked g a hg := h.asked g a (by simpa using hg)
  fresh u hu := h.fresh u (by simpa using hu)
  unused := by
    refine List.pairwise_cons.2 ⟨fun e' he' g u e e'' => ?_, h.unused⟩
    cases e
    subst e''
    obtain ⟨n, hn, rfl⟩ := h.fresh u he'
    exact hf n hn

theorem Orderly.cons_asked {f : Formula} {a : Except Fault Bool} (h : Orderly T k es)
    (hf : f.IsExistentialQuery) : Orderly T k (.asked f a :: es) where
  asked g a' hg := by
    rcases List.mem_cons.1 hg with e | hg
    · cases e
      exact hf
    · exact h.asked g a' hg
  fresh u hu := h.fresh u (by simpa using hu)
  unused := List.pairwise_cons.2 ⟨fun _ _ _ _ e => (nomatch e), h.unused⟩

theorem events_proceed (d : Dialogue α) (s : Session σ) : (proceed d).events T engine s =
    if s.cancelled then [] else d.events T engine s := by
  cases hc : s.cancelled <;> simp [events, eventsAfter, run_proceed, hc]

theorem events_fresh (k : SymbolicState → Dialogue α) (s : Session σ) :
    (Dialogue.fresh k).events T engine s =
      .fresh (T.successor s.tickets.next) :: (k (T.successor s.tickets.next)).events T engine
        { s with tickets := ⟨s.tickets.next + 1⟩ } := by
  simp only [events, eventsAfter, run_freshState]

theorem events_ask (f : Formula) (k : Bool → Dialogue α) (s : Session σ) :
    (ask f k).events T engine s = if s.cancelled then [] else
      .asked f (engine.decide f s.tickets false s.engine).answer ::
        eventsAfter (query engine f) s fun b => (k b).events T engine := rfl

/-- **The events of a run whose dialogue ensures something are in order**: the engine is asked what it
    may be asked, and the variables of every state are new. -/
theorem Ensures.orderly (he : Backs engine ready truth sure) (h : d.Ensures T truth sure c P)
    (hs : At ready c s) : Orderly T c.drawn (d.events T engine s) := by
  induction d generalizing c s with
  | done a => exact orderly_nil
  | stop cause => exact orderly_nil
  | proceed d ih =>
    rw [events_proceed]
    split
    · exact orderly_nil
    · exact ih h hs
  | fresh k ih =>
    rw [events_fresh, hs.drawn]
    exact .cons_fresh (ih _ (h _ (Nat.le_of_eq hs.drawn)) ⟨hs.ready, rfl, hs.queries⟩)
  | build f d ih => exact (ih h.2 hs).cons_built h.1
  | note r d ih => exact ih h ⟨hs.ready, hs.drawn, hs.queries⟩
  | ask f k ih =>
    rw [events_ask]
    split
    · exact orderly_nil
    · refine Orderly.cons_asked ?_ h.1
      rw [eventsAfter]
      split
      · next b s' hrun =>
        obtain ⟨truthful, drawn, hs'⟩ := ((leads_ask he h.1 hs).ok b s' hrun).2
        have later := ih b (h.2 b truthful _ drawn) hs'
        rw [hs'.drawn] at later
        exact later.mono drawn
      · exact orderly_nil
  | meter k ih =>
    have h' := h s.elapsed
    rw [hs.queries] at h'
    exact ih _ _ h' hs

/-- How a run with these events may end: the engine is still ready, and a fault is that the run was
    called off or what the engine gave for its last answer. -/
structure Ends (ready : σ → Prop) (es : List Event) (r : Except Halt α) (s : Session σ) : Prop where
  ready : ready s.engine
  fault : ∀ e, r = .error (.fault e) → e = .cancelled ∨ ∃ es' f, es = es' ++ [.asked f (.error e)]

variable {r : Except Halt α}

theorem Ends.cons (h : Ends ready es r s) (event : Event) : Ends ready (event :: es) r s where
  ready := h.ready
  fault e he := by
    refine (h.fault e he).imp_right fun ⟨es', f, h'⟩ => ⟨event :: es', f, ?_⟩
    rw [h', List.cons_append]

/-- A question is not put, as the run was called off; or it is put and not answered, which ends the
    run; or it is answered, and the run goes on. -/
theorem run_ask {f : Formula} {k : Bool → Dialogue α} {s' : Session σ}
    (hrun : ((ask f k).run T engine).run.run s = (r, s')) :
    (r = .error (.fault .cancelled) ∧ s' = s) ∨
    (∃ e, r = .error (.fault e) ∧
      s'.engine = (engine.decide f s.tickets false s.engine).engine ∧
      (ask f k).events T engine s = [.asked f (.error e)]) ∨
    ∃ b s1, (query engine f).run.run s = (.ok b, s1) ∧
      (ask f k).events T engine s = .asked f (.ok b) :: (k b).events T engine s1 ∧
      ((k b).run T engine).run.run s1 = (r, s') := by
  rw [events_ask]
  cases hc : s.cancelled with
  | true =>
    rw [run, run_bind_error (run_query_cancelled engine f hc)] at hrun
    cases hrun
    exact Or.inl ⟨rfl, rfl⟩
  | false =>
    rw [if_neg Bool.false_ne_true, eventsAfter]
    obtain ⟨s1, hq, asked⟩ := run_query engine f hc
    cases ha : (engine.decide f s.tickets false s.engine).answer with
    | error e =>
      rw [ha] at hq
      have herror : (query engine f).run.run s = (.error (.fault e), s1) := hq
      rw [run, run_bind_error herror] at hrun
      cases hrun
      exact Or.inr (Or.inl ⟨e, rfl, asked.state, by rw [herror]⟩)
    | ok b =>
      rw [ha] at hq
      have hok : (query engine f).run.run s = (.ok b, s1) := hq
      rw [run, run_bind_ok hok] at hrun
      exact Or.inr (Or.inr ⟨b, s1, hok, by rw [hok], hrun⟩)

/-- **A run whose dialogue ensures something has no faults of its own.** -/
theorem Ensures.ends (he : Backs engine ready truth sure) (h : d.Ensures T truth sure c P)
    (hs : At ready c s) {s' : Session σ} (hrun : (d.run T engine).run.run s = (r, s')) :
    Ends ready (d.events T engine s) r s' := by
  induction d generalizing c s with
  | done a =>
    cases hrun
    exact ⟨hs.ready, fun e he => by cases he⟩
  | stop cause =>
    obtain ⟨rfl, -⟩ := h
    cases hrun
    exact ⟨hs.ready, fun e he => by cases he⟩
  | proceed d ih =>
    have hproceed := run_proceed s
    rw [events_proceed]
    cases hc : s.cancelled with
    | true =>
      rw [hc, if_pos rfl] at hproceed
      rw [run, run_bind_error hproceed] at hrun
      cases hrun
      exact ⟨hs.ready, fun e he => by cases he; exact Or.inl rfl⟩
    | false =>
      rw [hc, if_neg Bool.false_ne_true] at hproceed
      rw [run, run_bind_ok hproceed] at hrun
      exact ih h hs hrun
  | fresh k ih =>
    have hs' : At ready { c with drawn := s.tickets.next + 1 }
        { s with tickets := ⟨s.tickets.next + 1⟩ } := ⟨hs.ready, rfl, hs.queries⟩
    rw [run, run_bind_ok (run_freshState T s)] at hrun
    rw [events_fresh]
    exact (ih _ (h _ (Nat.le_of_eq hs.drawn)) hs' hrun).cons _
  | build f d ih => exact (ih h.2 hs hrun).cons _
  | note r d ih => exact ih h ⟨hs.ready, hs.drawn, hs.queries⟩ hrun
  | ask f k ih =>
    obtain ⟨rfl, rfl⟩ | ⟨e, rfl, stays, hes⟩ | ⟨b, s1, hq, hes, hrun⟩ := run_ask hrun
    · exact ⟨hs.ready, fun e he => by cases he; exact Or.inl rfl⟩
    · refine ⟨?_, fun e' he' => ?_⟩
      · rw [stays]
        exact he.stays f _ _ h.1 hs.ready
      · cases he'
        exact Or.inr ⟨[], f, hes⟩
    · obtain ⟨truthful, drawn, hs'⟩ := ((leads_ask he h.1 hs).ok b s1 hq).2
      rw [hes]
      exact (ih b (h.2 b truthful _ drawn) hs' hrun).cons _
  | meter k ih =>
    have h' := h s.elapsed
    rw [hs.queries] at h'
    exact ih _ _ h' hs hrun

end Dialogue

end Tableau

end CtlTableau
