import Std.Data.HashMap

/-!
# Decision diagrams

Boolean functions over numbered levels as reduced ordered decision diagrams in one table. A diagram
is the number of its node: 0 is the constant false, 1 the constant true, and a node tests one level
and goes on to two older nodes, below which only greater levels are tested. A node is entered once,
and none that would go on to the same node on both sides; so equal functions have equal numbers.

Numbers are given in the order in which nodes are entered. Every operation enters its low side
before its high side and remembers its results. Each runs down the table from its arguments to
older nodes; the check that the children of a node are older is what ends it.
-/

namespace CtlTableau

/-- A diagram in a table, as the number of its root. -/
abbrev Ref := Nat

/-- A test of a level. -/
structure Node where
  level : Nat
  low : Ref
  high : Ref
  deriving DecidableEq, Repr, Inhabited

/-- A table of nodes, and the results of the operations so far. -/
structure DiagramTable where
  /-- The nodes in the order in which they were entered; the first two stand for the constants. -/
  nodes : Array Node
  /-- The number of each node. -/
  unique : Std.HashMap (Nat × Ref × Ref) Ref
  negations : Std.HashMap Ref Ref
  conjunctions : Std.HashMap (Ref × Ref) Ref
  projections : Std.HashMap (Ref × Nat) Ref

namespace DiagramTable

/-- The constant false. -/
abbrev falsum : Ref := 0

/-- The constant true. -/
abbrev verum : Ref := 1

/-- The table without tests. -/
def empty : DiagramTable := ⟨#[⟨0, 0, 0⟩, ⟨0, 0, 0⟩], ∅, ∅, ∅, ∅⟩

/-- Whether a diagram is a constant. -/
def isConstant (f : Ref) : Bool := f == falsum || f == verum

/-! ## 1. Entering nodes -/

/-- The diagram that tests a level; a test without effect is left out. -/
def node (t : DiagramTable) (level : Nat) (low high : Ref) : Ref × DiagramTable :=
  if low = high then (low, t)
  else
    match t.unique[(level, low, high)]? with
    | some f => (f, t)
    | none =>
      let f := t.nodes.size
      (f, { t with
        nodes := t.nodes.push ⟨level, low, high⟩
        unique := t.unique.insert (level, low, high) f })

/-- The diagram that is true where a level is. -/
def test (t : DiagramTable) (level : Nat) : Ref × DiagramTable := t.node level falsum verum

/-- The two sides of a diagram at a level: its children if it tests that level, else itself. -/
def sides (t : DiagramTable) (f : Ref) (level : Nat) : Ref × Ref :=
  match t.nodes[f]? with
  | some n => if n.level = level then (n.low, n.high) else (f, f)
  | none => (f, f)

/-! ## 2. Connectives -/

/-- Negation. -/
def not (t : DiagramTable) (f : Ref) : Ref × DiagramTable :=
  if f = falsum then (verum, t)
  else if f = verum then (falsum, t)
  else
    match t.negations[f]? with
    | some r => (r, t)
    | none =>
      match t.nodes[f]? with
      | none => (f, t)
      | some n =>
        if _h : n.low < f ∧ n.high < f then
          let (low, t) := t.not n.low
          let (high, t) := t.not n.high
          let (r, t) := t.node n.level low high
          (r, { t with negations := t.negations.insert f r })
        else (f, t)
termination_by f
decreasing_by
  · exact _h.1
  · exact _h.2

/-- Conjunction. -/
def and (t : DiagramTable) (f g : Ref) : Ref × DiagramTable :=
  if f = falsum ∨ g = falsum then (falsum, t)
  else if f = verum ∨ f = g then (g, t)
  else if g = verum then (f, t)
  else
    let key := if f < g then (f, g) else (g, f)
    match t.conjunctions[key]? with
    | some r => (r, t)
    | none =>
      match t.nodes[f]?, t.nodes[g]? with
      | some nf, some ng =>
        let level := min nf.level ng.level
        let (f0, f1) := t.sides f level
        let (g0, g1) := t.sides g level
        if _h : f0 + g0 < f + g ∧ f1 + g1 < f + g then
          let (low, t) := t.and f0 g0
          let (high, t) := t.and f1 g1
          let (r, t) := t.node level low high
          (r, { t with conjunctions := t.conjunctions.insert key r })
        else (falsum, t)
      | _, _ => (falsum, t)
termination_by f + g
decreasing_by
  · exact _h.1
  · exact _h.2

/-- Disjunction, as the negation of the conjunction of the negations. -/
def or (t : DiagramTable) (f g : Ref) : Ref × DiagramTable :=
  let (nf, t) := t.not f
  let (ng, t) := t.not g
  let (r, t) := t.and nf ng
  t.not r

/-! ## 3. Quantifiers -/

/-- The diagram that is true where a value of the level makes the given one true. -/
def exist (t : DiagramTable) (f : Ref) (level : Nat) : Ref × DiagramTable :=
  if isConstant f then (f, t)
  else
    match t.nodes[f]? with
    | none => (f, t)
    | some n =>
      if level < n.level then (f, t)
      else
        match t.projections[(f, level)]? with
        | some r => (r, t)
        | none =>
          if n.level = level then
            let (r, t) := t.or n.low n.high
            (r, { t with projections := t.projections.insert (f, level) r })
          else if _h : n.low < f ∧ n.high < f then
            let (low, t) := t.exist n.low level
            let (high, t) := t.exist n.high level
            let (r, t) := t.node n.level low high
            (r, { t with projections := t.projections.insert (f, level) r })
          else (f, t)
termination_by f
decreasing_by
  · exact _h.1
  · exact _h.2

/-- The diagram that is true where both values of the level make the given one true. -/
def all (t : DiagramTable) (f : Ref) (level : Nat) : Ref × DiagramTable :=
  let (nf, t) := t.not f
  let (denied, t) := t.exist nf level
  t.not denied

end DiagramTable

end CtlTableau
