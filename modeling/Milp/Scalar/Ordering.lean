import Milp.Operator
import Milp.Scalar

/-! Comparison of host scalars in filter conditions. Integers and floats compare by their
numeric value as doubles, strings by code points; a string and a number are unequal and have no
order. -/
namespace Milp.Scalar

/-- Whether two scalars are equal. Values of different kinds are not, numbers apart. -/
def equal : Scalar → Scalar → Bool
  | .int a, .int b => a == b
  | .str s, .str t => s == t
  | .int a, .float y => nearestDouble a == y
  | .float x, .int b => x == nearestDouble b
  | .float x, .float y => x == y
  | _, _ => false

/-- The order of two scalars, if they have one. -/
def compare? : Scalar → Scalar → Option Ordering
  | .int a, .int b => some (compare a b)
  | .str s, .str t => some (compare s t)
  | .int a, .float y => compareDoubles (nearestDouble a) y
  | .float x, .int b => compareDoubles x (nearestDouble b)
  | .float x, .float y => compareDoubles x y
  | _, _ => none

/-- Whether two scalars are related. Ordering a string against a number fails; a NaN is related
by `ne` only. -/
def related (relation : Relation) (l r : Scalar) (scope : Scope) : Except Error Bool :=
  match relation with
  | .eq => .ok (equal l r)
  | .ne => .ok (!equal l r)
  | _ =>
    if l.isNumeric != r.isNumeric then
      .error (.typeMismatch relation.name
        ("cannot order " ++ l.kind ++ " " ++ quoted l.text ++ " against " ++ r.kind ++ " "
          ++ quoted r.text) scope.snapshot)
    else match compare? l r with
      | some o => .ok (relation.holds o)
      | none => .ok false

end Milp.Scalar
