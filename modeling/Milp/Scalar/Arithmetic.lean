import Milp.Operator
import Milp.Scalar

/-! Eager arithmetic on host scalars. Integers stay integers while the result fits into 64 bits
and become floats otherwise; division and the math functions always give floats. -/
namespace Milp.Scalar

def exactResult? : BinaryOp → Int → Int → Option Int
  | .add, a, b => some (a + b)
  | .sub, a, b => some (a - b)
  | .mul, a, b => some (a * b)
  | .div, _, _ => none

def integral (op : BinaryOp) (a b : Int64) : Option Int64 :=
  match exactResult? op a.toInt b.toInt with
  | some n => int64? n
  | none => none

def floating (op : BinaryOp) (x y : Float) (scope : Scope) : Except Error Scalar :=
  match op with
  | .add => .ok (.float (x + y))
  | .sub => .ok (.float (x - y))
  | .mul => .ok (.float (x * y))
  | .div => if y == 0.0 then .error (.divisionByZero scope.snapshot) else .ok (.float (x / y))

/-- Folds a unary operator. The negation of an integer is an integer where it has one. -/
def unary (op : UnaryOp) (value : Scalar) (scope : Scope) : Except Error Scalar :=
  match value with
  | .str s => .error (.typeMismatch op.name ("string operand " ++ quoted s) scope.snapshot)
  | .float x => .ok (.float (op.apply x))
  | .int v =>
    match op with
    | .negate =>
      match int64? (-v.toInt) with
      | some n => .ok (.int n)
      | none => .ok (.float (-nearestDouble v))
    | _ => .ok (.float (op.apply (nearestDouble v)))

def operandMismatch (op : BinaryOp) (l r : Scalar) (scope : Scope) : Error :=
  .typeMismatch op.name
    ("cannot apply " ++ quoted op.symbol ++ " to " ++ l.kind ++ " " ++ quoted l.text ++ " and "
      ++ r.kind ++ " " ++ quoted r.text) scope.snapshot

def binary (op : BinaryOp) (l r : Scalar) (scope : Scope) : Except Error Scalar :=
  match l, r with
  | .int a, .int b =>
    match integral op a b with
    | some n => .ok (.int n)
    | none => floating op (nearestDouble a) (nearestDouble b) scope
  | .int a, .float y => floating op (nearestDouble a) y scope
  | .float x, .int b => floating op x (nearestDouble b) scope
  | .float x, .float y => floating op x y scope
  | _, _ => .error (operandMismatch op l r scope)

end Milp.Scalar
