/-!
# Doubles as whole numbers

A finite double is a sign and a whole number of units, the unit being the smallest positive
double, `2⁻¹⁰⁷⁴`. In that view rounding a quotient to the nearest double and taking the
remainder of two doubles are exact arithmetic on natural numbers.
-/
namespace Abacus.Double

/-- The bits of positive infinity; smaller patterns are the finite magnitudes, in order. -/
def infinityBits : Nat := 0x7FF0000000000000

def ofBits (negative : Bool) (bits : Nat) : Float :=
  Float.ofBits (UInt64.ofNat (bits + if negative then Nat.pow 2 63 else 0))

/-- The one value of `NaN`. -/
def nan : Float := Float.ofBits 0x7FF8000000000000

def infinity (negative : Bool) : Float := ofBits negative infinityBits

/-- The sign bit is set, as it is in `-0`; a `NaN` counts as unsigned. -/
def isNegative (x : Float) : Bool := Nat.pow 2 63 ≤ x.toBits.toNat

/-- The bits without the sign. -/
def magnitude (x : Float) : Nat := x.toBits.toNat % Nat.pow 2 63

/-- The units of the finite magnitude with the given bits: eleven bits of exponent above
fifty-two of fraction. -/
def unitsOfBits (bits : Nat) : Nat :=
  let hidden := Nat.pow 2 52
  if bits < hidden then bits else (hidden + bits % hidden) * Nat.pow 2 (bits / hidden - 1)

def units (x : Float) : Nat := unitsOfBits (magnitude x)

/-- The whole number nearest to a quotient; a half goes to the even neighbour. -/
def roundQuotient (num den : Nat) : Nat :=
  let q := num / den
  let r := num % den
  if 2 * r < den then q else if den < 2 * r then q + 1 else q + q % 2

/-- The bits of the magnitude nearest to `num / den` units. Fifty-three digits of the quotient
are kept, and what exceeds the largest finite magnitude is infinite. -/
def nearestBits (num den : Nat) : Nat :=
  let e := (num / den).log2 - 52
  min (e * Nat.pow 2 52 + roundQuotient num (den * Nat.pow 2 e)) infinityBits

def ofUnits (negative : Bool) (num den : Nat) : Float := ofBits negative (nearestBits num den)

/-- What is left of `x` when as many whole `y` as fit are taken away, with the sign of `x`. -/
def remainder (x y : Float) : Float :=
  if x.isNaN || x.isInf || y.isNaN || y == 0.0 then nan
  else if y.isInf then x
  else ofUnits (isNegative x) (units x % units y) 1

/-- The larger of two, a `NaN` giving way to the other. -/
def larger (a b : Float) : Float :=
  if a.isNaN then b else if b.isNaN then a else if a < b then b else a

/-- Equal, or no further apart than the tolerance times the larger magnitude, which counts as
at least one. -/
def approxEqual (a b tolerance : Float) : Bool :=
  a == b || (a - b).abs ≤ tolerance * larger (larger a.abs b.abs) 1.0

end Abacus.Double
