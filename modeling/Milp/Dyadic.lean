/-! The exact value of a double: a sign, a whole significand and a power of two.
Every finite double has exactly one such reading, taken from its bits; integrality and
rounding to decimal digits are decided on it in exact arithmetic. -/
namespace Milp

/-- The number `± significand * 2 ^ exponent`. -/
structure Dyadic where
  negative : Bool
  significand : Nat
  exponent : Int
deriving DecidableEq, Repr

namespace Dyadic

/-- The exact value of a double, with the significand that its bits hold. Infinities and
NaN have none. -/
def ofFloat? (x : Float) : Option Dyadic :=
  let bits := x.toBits.toNat
  let biased : Nat := bits / Nat.pow 2 52 % Nat.pow 2 11
  let fraction := bits % Nat.pow 2 52
  let negative := decide (Nat.pow 2 63 ≤ bits)
  if biased = Nat.pow 2 11 - 1 then none
  else if biased = 0 then some ⟨negative, fraction, -1074⟩
  else some ⟨negative, Nat.pow 2 52 + fraction, (biased : Int) - 1075⟩

def wholeMagnitude? (d : Dyadic) : Option Nat :=
  if 0 ≤ d.exponent then some (d.significand * Nat.pow 2 d.exponent.toNat)
  else
    let unit := Nat.pow 2 (-d.exponent).toNat
    if d.significand % unit = 0 then some (d.significand / unit) else none

/-- The value as an integer, where it is one. Both zeros give `0`. -/
def toInt? (d : Dyadic) : Option Int :=
  d.wholeMagnitude?.map fun n => if d.negative then -(n : Int) else n

end Dyadic

/-- The double nearest to a 64-bit integer, ties to even. -/
def nearestDouble (v : Int64) : Float :=
  if v.toInt < 0 then -(v.toInt.natAbs.toUInt64.toFloat) else v.toInt.toNat.toUInt64.toFloat

/-- The ordering of two doubles; a NaN is ordered against nothing, and the two zeros are equal. -/
def compareDoubles (x y : Float) : Option Ordering :=
  if x == y then some .eq
  else if x < y then some .lt
  else if y < x then some .gt
  else none

def int64? (n : Int) : Option Int64 :=
  if Int64.minValue.toInt ≤ n ∧ n ≤ Int64.maxValue.toInt then some (Int64.ofInt n) else none

end Milp
