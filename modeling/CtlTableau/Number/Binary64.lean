import CtlTableau.Number.Rounding

/-!
# Numbers in 64-bit floating point

Times are computed and read in the usual 64-bit format: 53 binary digits and an exponent of bounded
range. Only non-negative numbers are needed, and they are kept as the exact fractions they stand
for; rounding to the format is the one operation, and arithmetic is exact arithmetic followed by it.
-/

namespace CtlTableau.Binary64

/-- The whole part of the binary logarithm of a positive fraction. -/
def exponent (a : Ratio) : Int :=
  let e : Int := (Nat.log2 a.num : Int) - Nat.log2 a.den
  if (a.shift (-e)).num < (a.shift (-e)).den then e - 1 else e

/-- The exponent of the last digit that a fraction keeps: 53 digits, but none below the least
    exponent of the format. -/
def lastPlace (a : Ratio) : Int := max (exponent a - 52) (-1074)

/-- The nearest number of the format, or none where that would be infinite. -/
def round? (a : Ratio) : Option Ratio :=
  if a.num = 0 then some ⟨0, 1⟩
  else
    let place := lastPlace a
    let r := (Ratio.ofNat (a.shift (-place)).round).shift place
    if Nat.pow 2 1024 ≤ r.num / r.den then none else some r

/-- The nearest number of the format; fractions out of range give the largest power of two. -/
def round (a : Ratio) : Ratio := (round? a).getD (.ofNat (Nat.pow 2 1024))

end CtlTableau.Binary64
