import Milp.Dyadic

/-! The shortest decimal digits of a double: the fewest digits that read back as the same
double, and of those the nearest to it. The reals that round to a double form an interval;
grids of 1, 2, … significant digits are tried in turn, and on each only the two neighbours of
the value can be in the interval. All comparisons are between natural numbers. -/
namespace Milp.Decimal

inductive Tie where
  | up
  | even
deriving DecidableEq, Repr

/-- The positive decimal `digits * 10 ^ scale`. -/
structure Digits where
  digits : Nat
  scale : Int
deriving DecidableEq, Repr

def Digits.trim (d : Digits) : Nat → Digits
  | 0 => d
  | n + 1 =>
    if d.digits % 10 = 0 ∧ d.digits ≠ 0 then Digits.trim ⟨d.digits / 10, d.scale + 1⟩ n else d

/-- The interval of reals that round to a positive double. All four numbers are multiples of
the reciprocal of `unit`. -/
structure Rounding where
  low : Nat
  value : Nat
  high : Nat
  unit : Nat
  /-- Whether the end points round to the double too. -/
  closed : Bool

/-- Neighbouring doubles are one significand unit apart, except below a power of two, where
the lower neighbour is half as far. -/
def Rounding.ofDyadic (d : Dyadic) : Rounding :=
  let m := d.significand
  let below := if m = Nat.pow 2 52 ∧ -1074 < d.exponent then 1 else 2
  let shift := d.exponent - 2
  let up := Nat.pow 2 shift.toNat
  ⟨(4 * m - below) * up, 4 * m * up, (4 * m + 2) * up, Nat.pow 2 (-shift).toNat, m % 2 = 0⟩

def Rounding.reaches (r : Rounding) (k : Int) : Bool :=
  Nat.pow 10 k.toNat * r.unit ≤ r.value * Nat.pow 10 (-k).toNat

/-- The decimal exponent of the leading digit, from an estimate by the binary length. -/
def Rounding.leading (r : Rounding) : Int :=
  let estimate := ((Nat.log2 r.value : Int) - (Nat.log2 r.unit : Int)) * 30103 / 100000
  if r.reaches (estimate + 1) then estimate + 1
  else if r.reaches estimate then estimate
  else estimate - 1

def Rounding.onGrid (r : Rounding) (tie : Tie) (scale : Int) : Option Nat :=
  let step := r.unit * Nat.pow 10 scale.toNat
  let stretch := Nat.pow 10 (-scale).toNat
  let value := r.value * stretch
  let below := value / step
  let lowerIn :=
    if r.closed then r.low * stretch ≤ below * step else r.low * stretch < below * step
  let upperIn :=
    if r.closed then (below + 1) * step ≤ r.high * stretch
    else (below + 1) * step < r.high * stretch
  let rest := value - below * step
  let nearer :=
    if 2 * rest < step then below
    else if step < 2 * rest then below + 1
    else match tie with
      | .up => below + 1
      | .even => if below % 2 = 0 then below else below + 1
  if lowerIn ∧ upperIn then some nearer
  else if lowerIn then some below
  else if upperIn then some (below + 1)
  else none

def Rounding.search (r : Rounding) (tie : Tie) (scale : Int) : Nat → Digits
  | 0 => ⟨r.value * Nat.pow 10 (-scale).toNat / (r.unit * Nat.pow 10 scale.toNat), scale⟩
  | n + 1 =>
    match r.onGrid tie scale with
    | some digits => ⟨digits, scale⟩
    | none => r.search tie (scale - 1) n

/-- The shortest digits of a nonzero value. Seventeen digits tell any two doubles apart. -/
def shortest (tie : Tie) (d : Dyadic) : Digits :=
  let r := Rounding.ofDyadic d
  (r.search tie r.leading 17).trim 17

end Milp.Decimal
