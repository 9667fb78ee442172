import Std.Data.HashMap
import CtlTableau.Clausal

/-!
# Circuits and their definitions

A circuit is a propositional formula over numbered inputs. `Circuit.define` names the output of
every gate by a variable of its own; gates with the same operands share a name, so a subcircuit that
occurs twice is named once. The defining clauses of a gate say that its name has the gate's value.
-/

namespace CtlTableau

/-- A propositional formula over numbered inputs. -/
inductive Circuit where
  | input (id : Nat)
  | not (c : Circuit)
  | and (c d : Circuit)
  | or (c d : Circuit)
  deriving DecidableEq, Repr

/-- A connective over literals. -/
inductive Gate where
  | not (a : Int)
  | and (a b : Int)
  | or (a b : Int)
  deriving DecidableEq, Hashable, Repr

/-- The clauses that tie the literal `x` to the value of a gate. -/
def Gate.clauses (x : Int) : Gate → List (List Int)
  | .not a => [[-x, -a], [x, a]]
  | .and a b => [[-x, a], [-x, b], [x, -a, -b]]
  | .or a b => [[-x, a, b], [x, -a], [x, -b]]

/-- The gates named so far, in the order of their names. -/
structure Definitions where
  /-- Names are counted from here. -/
  offset : Nat
  gates : Array Gate
  /-- The place of each gate in the list. -/
  index : Std.HashMap Gate Nat

namespace Definitions

/-- Nothing is named yet. -/
def empty (offset : Nat) : Definitions := ⟨offset, #[], ∅⟩

/-- The literal that names the gate at a place of the list. -/
def nameAt (d : Definitions) (place : Nat) : Int := (d.offset + place + 1 : Nat)

/-- The name of a gate, a new one if it has none. -/
def name (d : Definitions) (g : Gate) : Int × Definitions :=
  match d.index[g]? with
  | some place => (d.nameAt place, d)
  | none =>
    let place := d.gates.size
    (d.nameAt place, ⟨d.offset, d.gates.push g, d.index.insert g place⟩)

/-- The clauses of all definitions. -/
def clauses (d : Definitions) : List (List Int) :=
  d.gates.toList.zipIdx.flatMap fun (g, place) => g.clauses (d.nameAt place)

end Definitions

/-- Names the gates of a circuit, arguments before the gate over them and left before right; the
    literal is the name of the whole. -/
def Circuit.define : Circuit → Definitions → Int × Definitions
  | .input id, d => (id, d)
  | .not c, d =>
    let (a, d) := c.define d
    d.name (.not a)
  | .and c c', d =>
    let (a, d) := c.define d
    let (b, d) := c'.define d
    d.name (.and a b)
  | .or c c', d =>
    let (a, d) := c.define d
    let (b, d) := c'.define d
    d.name (.or a b)

end CtlTableau
