/-!
# Tickets

A run that has to invent names draws numbers from a counter of its own. A drawn name is its base, a
prime and the number. Words of the grammar hold no prime, and no number is drawn twice, so drawn
names clash neither with given ones nor with each other.
-/

namespace CtlTableau

/-- The next number to be drawn. -/
structure Tickets where
  next : Nat
  deriving DecidableEq, Repr

namespace Tickets

/-- Counting starts at one. -/
def start : Tickets := ⟨1⟩

/-- Draws a number. -/
def take (t : Tickets) : Nat × Tickets := (t.next, ⟨t.next + 1⟩)

/-- The name that a number makes of a base. -/
def name (base : String) (ticket : Nat) : String := base ++ "'" ++ toString ticket

/-- Draws a name. -/
def freshName (base : String) (t : Tickets) : String × Tickets :=
  (name base t.next, ⟨t.next + 1⟩)

end Tickets

end CtlTableau
