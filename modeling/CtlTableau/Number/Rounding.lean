/-!
# Rounding

Exact fractions of natural numbers, and rounding to the nearest whole number with ties to the even
one. Main statement: the result is within half a unit of the fraction (`abs_sub_le_half`).
-/

namespace CtlTableau

/-- A fraction; a denominator of zero stands for no value. -/
structure Ratio where
  num : Nat
  den : Nat
  deriving DecidableEq, Repr

namespace Ratio

/-- A whole number. -/
def ofNat (n : Nat) : Ratio := ⟨n, 1⟩

/-- The sum. -/
def add (a b : Ratio) : Ratio := ⟨a.num * b.den + b.num * a.den, a.den * b.den⟩

/-- A multiple. -/
def scale (a : Ratio) (k : Nat) : Ratio := ⟨a.num * k, a.den⟩

/-- The product with a power of two, whose exponent may be negative. -/
def shift (a : Ratio) : Int → Ratio
  | .ofNat k => ⟨a.num * Nat.pow 2 k, a.den⟩
  | .negSucc k => ⟨a.num, a.den * Nat.pow 2 (k + 1)⟩

/-- The nearest whole number; of two equally near ones the even one. -/
def round (a : Ratio) : Nat :=
  let q := a.num / a.den
  let r := a.num % a.den
  if 2 * r < a.den then q
  else if a.den < 2 * r then q + 1
  else if q % 2 = 0 then q else q + 1

/-- The result is within half a unit. -/
theorem abs_sub_le_half {a : Ratio} (h : 0 < a.den) :
    2 * (a.round * a.den) ≤ 2 * a.num + a.den ∧ 2 * a.num ≤ 2 * (a.round * a.den) + a.den := by
  have e := Nat.div_add_mod a.num a.den
  have hr := Nat.mod_lt a.num h
  have e' : a.num / a.den * a.den = a.den * (a.num / a.den) := Nat.mul_comm _ _
  unfold round
  dsimp only
  split
  · constructor <;> omega
  · split
    · simp only [Nat.add_mul, Nat.one_mul]
      constructor <;> omega
    · split
      · constructor <;> omega
      · simp only [Nat.add_mul, Nat.one_mul]
        constructor <;> omega

/-- A tie goes to the even neighbour. -/
theorem even_of_tie {a : Ratio} (h : 2 * (a.num % a.den) = a.den) : a.round % 2 = 0 := by
  unfold round
  dsimp only
  rw [if_neg (by omega), if_neg (by omega)]
  split <;> omega

/-- The fraction with the given number of decimal places. -/
def fixed (places : Nat) (a : Ratio) : String :=
  let unit := Nat.pow 10 places
  let n := (a.scale unit).round
  let digits := toString (n % unit)
  toString (n / unit) ++ "." ++
    String.ofList (List.replicate (places - digits.length) '0') ++ digits

end Ratio

end CtlTableau
