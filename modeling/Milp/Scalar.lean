import Milp.Element
import Milp.Decimal.Layout

/-! Host values: numbers, which keep their integer or float kind, and scalars, which may also
be strings. A scalar can stand in an index position when it is an integer, a string, or a float
with an integral value. -/
namespace Milp

/-- A numeric literal. An integer and a float of equal value are different numbers. -/
inductive Number where
  | int (value : Int64)
  | float (value : Float)
deriving DecidableEq

namespace Number

def toFloat : Number → Float
  | int v => nearestDouble v
  | float x => x

def isInt : Number → Bool
  | int _ => true
  | float _ => false

/-- The displayed number; floats always show a point or an exponent. -/
def text : Number → String
  | int v => toString v.toInt
  | float x => Decimal.display.text x

/-- Sameness of kind and numeric value, so a NaN differs from itself and the zeros agree. -/
def same : Number → Number → Bool
  | int a, int b => a == b
  | float x, float y => x == y
  | _, _ => false

end Number

inductive Scalar where
  | int (value : Int64)
  | float (value : Float)
  | str (text : String)
deriving DecidableEq

namespace Scalar

def ofNumber : Number → Scalar
  | .int v => .int v
  | .float x => .float x

def ofElement : Element → Scalar
  | .int v => .int v
  | .str s => .str s

def number? : Scalar → Option Number
  | int v => some (.int v)
  | float x => some (.float x)
  | str _ => none

def toFloat? : Scalar → Option Float
  | int v => some (nearestDouble v)
  | float x => some x
  | str _ => none

def int? : Scalar → Option Int64
  | int v => some v
  | float _ => none
  | str _ => none

def isNumeric : Scalar → Bool
  | int _ => true
  | float _ => true
  | str _ => false

/-- The integer that a float stands for in an index position: the float has that exact value,
and its magnitude is below `2 ^ 63`. -/
def integral? (x : Float) : Option Int64 :=
  match Dyadic.ofFloat? x with
  | none => none
  | some d =>
    match d.toInt? with
    | none => none
    | some n => if n.natAbs < Nat.pow 2 63 then some (Int64.ofInt n) else none

def element? : Scalar → Option Element
  | int v => some (.int v)
  | float x => (integral? x).map .int
  | str s => some (.str s)

def kind : Scalar → String
  | int _ => "integer"
  | float _ => "float"
  | str _ => "string"

/-- The displayed scalar; strings stand unquoted. -/
def text : Scalar → String
  | int v => toString v.toInt
  | float x => Decimal.display.text x
  | str s => s

end Scalar

end Milp
