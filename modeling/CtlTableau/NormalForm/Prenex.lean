import CtlTableau.Formula.Names
import CtlTableau.Fault
import CtlTableau.Tickets

/-!
# Prenex normal form

A quantified boolean formula in negation normal form is brought to the shape "quantifiers, then a
matrix". Under a connective the quantifiers of the left side come out before those of the right
side. Two quantifiers of the same kind over the same name become one where the kind distributes
over the connective; otherwise a name that the other side mentions is replaced by a fresh one before
its quantifier moves.
-/

namespace CtlTableau

/-- Whether a quantifier can be shared by both sides of a connective. -/
def Quantifier.distributesOver : Quantifier → BinaryOp → Bool
  | .universal, .and => true
  | .existential, .or => true
  | _, _ => false

namespace Formula

/-- Prepares a bound name and its body to move over another formula: where that mentions the name,
    a fresh name takes its place. -/
def renameApart (x : String) (body other : Formula) (t : Tickets) : String × Formula × Tickets :=
  if other.mentions x then
    let (x', t') := t.freshName x
    (x', body.rename x x', t')
  else (x, body, t)

@[simp] theorem size_renameApart (x : String) (body other : Formula) (t : Tickets) :
    (renameApart x body other t).2.1.size = body.size := by
  unfold renameApart
  split
  · simp [Tickets.freshName, size_rename]
  · rfl

/-- Joins two prenex formulas by a connective and moves their quantifiers to the front. -/
def pullQuantifiers (op : BinaryOp) (f g : Formula) (t : Tickets) : Formula × Tickets :=
  match f, g with
  | .quant k x p, .quant k' y q =>
    if k = k' ∧ x = y ∧ k.distributesOver op = true then
      let (r, t') := pullQuantifiers op p q t
      (.quant k x r, t')
    else
      let renamed := renameApart x p (.quant k' y q) t
      let (r, t') := pullQuantifiers op renamed.2.1 (.quant k' y q) renamed.2.2
      (.quant k renamed.1 r, t')
  | .quant k x p, g =>
    let renamed := renameApart x p g t
    let (r, t') := pullQuantifiers op renamed.2.1 g renamed.2.2
    (.quant k renamed.1 r, t')
  | f, .quant k y q =>
    let renamed := renameApart y q f t
    let (r, t') := pullQuantifiers op f renamed.2.1 renamed.2.2
    (.quant k renamed.1 r, t')
  | f, g => (.binary op f g, t)
termination_by f.size + g.size
decreasing_by
  all_goals simp only [size, size_renameApart]
  all_goals omega

/-- Moves the quantifiers to the front, on the left side of a connective first. Numbers drawn before
    a fault stay drawn. -/
def prenex : Formula → Tickets → Except Fault Formula × Tickets
  | .atom x, t => (.ok (.atom x), t)
  | .unary op p, t =>
    if op = .not then (if p.isAtom then .ok (.not p) else .error (.notInNnf (.not p)), t)
    else (.error (.unsupported .prenexForm (.unary op p)), t)
  | .binary op p q, t =>
    if op = .and ∨ op = .or then
      match p.prenex t with
      | (.error e, t') => (.error e, t')
      | (.ok p', t') =>
        match q.prenex t' with
        | (.error e, t'') => (.error e, t'')
        | (.ok q', t'') =>
          let pulled := pullQuantifiers op p' q' t''
          (.ok pulled.1, pulled.2)
    else (.error (.unsupported .prenexForm (.binary op p q)), t)
  | .quant k x p, t =>
    match p.prenex t with
    | (.error e, t') => (.error e, t')
    | (.ok r, t') => (.ok (.quant k x r), t')

end Formula

end CtlTableau
