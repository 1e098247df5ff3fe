import Milp.Proofs.Evaluation.Terms

/-! Meaning of expressions over the rational numbers. A valuation gives numbers to everything that
evaluation leaves open; under a valuation both an evaluated result and the expression that it came
from stand for a number. The meaning of an expression is compositional: it never looks at the
values of operands, only index positions and conditions are evaluated. -/
namespace Milp

variable {V : Type}

/-- Rational values for the handles of decision variables and the float constants, and functions
for division and for the math functions. -/
structure Valuation (V : Type) where
  handle : V → ℚ
  float : Float → ℚ
  quotient : ℚ → ℚ → ℚ
  call : UnaryOp → ℚ → ℚ

namespace Valuation

variable (ρ : Valuation V)

def number : Number → ℚ
  | .int v => v.toInt
  | .float x => ρ.float x

def scalar? : Scalar → Option ℚ
  | .int v => some v.toInt
  | .float x => some (ρ.float x)
  | .str _ => none

def unary : UnaryOp → ℚ → ℚ
  | .negate, x => -x
  | op, x => ρ.call op x

def binary : BinaryOp → ℚ → ℚ → ℚ
  | .add, x, y => x + y
  | .sub, x, y => x - y
  | .mul, x, y => x * y
  | .div, x, y => ρ.quotient x y

def sum? : List (Option ℚ) → Option ℚ
  | [] => some 0
  | x :: xs => do return (← x) + (← sum? xs)

def reference? (st : Setting V) (kind : RefKind) (name : String) (index : Tuple) : Option ℚ :=
  match kind with
  | .variable => (st.handle name index).map ρ.handle
  | .parameter => ((st.parameters.get? name).bind fun p => p.get? index).map ρ.number

end Valuation

mutual

def Symbolic.value (ρ : Valuation V) : Symbolic V → ℚ
  | .var v => ρ.handle v
  | .const n => ρ.number n
  | .sum ts => Symbolic.total ρ ts
  | .difference l r => l.value ρ - r.value ρ
  | .product l r => l.value ρ * r.value ρ
  | .quotient l r => ρ.quotient (l.value ρ) (r.value ρ)
  | .neg e => -e.value ρ
  | .call op e => ρ.call op (e.value ρ)

def Symbolic.total (ρ : Valuation V) : List (Symbolic V) → ℚ
  | [] => 0
  | t :: ts => t.value ρ + Symbolic.total ρ ts

end

/-- The value of an evaluated result; a host string has none. -/
def Resolved.value? (ρ : Valuation V) : Resolved V → Option ℚ
  | .host s => ρ.scalar? s
  | .symbolic e => some (e.value ρ)

/-- Whether a sum ranges over a tuple: its condition holds there. -/
def Aggregation.admits (st : Setting V) (scope : Scope) (ranges : List Range)
    (condition : Option (Comparison Expr)) (t : Tuple) : Bool :=
  match Condition.eval st (Aggregation.inner scope ranges t) condition with
  | .ok admitted => admitted
  | .error _ => false

mutual

/-- The number that an expression stands for in a scope. Strings stand for none. -/
def Expr.meaning (ρ : Valuation V) (st : Setting V) (scope : Scope) : Expr → Option ℚ
  | .number n => some (ρ.number n)
  | .string _ => none
  | .indexVar name => (scope.get? name).bind fun x => ρ.scalar? (.ofElement x)
  | .ref kind name => ρ.reference? st kind name []
  | .refAt kind name positions =>
    match Expr.evalPositions st scope name positions with
    | .ok index => ρ.reference? st kind name index
    | .error _ => none
  | .unary op e => do return ρ.unary op (← e.meaning ρ st scope)
  | .binary op l r => do return ρ.binary op (← l.meaning ρ st scope) (← r.meaning ρ st scope)
  | .aggregate a => Aggregation.meaning ρ st scope a

/-- The sum of the meanings of the body over the tuples that the sum ranges over, the ranges
layered over the scope. Only sums have a meaning. -/
def Aggregation.meaning (ρ : Valuation V) (st : Setting V) (scope : Scope) :
    Aggregation Expr → Option ℚ
  | ⟨.sum, body, ranges, condition⟩ =>
    match st.axes (ranges.map Range.set) with
    | .ok axes =>
      let admitted := (tuples axes).filter (Aggregation.admits st scope ranges condition)
      Valuation.sum? (admitted.map fun t => body.meaning ρ st (Aggregation.inner scope ranges t))
    | .error _ => none
  | _ => none

end

/-- An operation on host scalars that evaluation carries out at once. -/
structure Fold where
  operands : List Scalar
  result : Scalar

def Fold.isIntegral (f : Fold) : Bool :=
  f.operands.all (fun s => s.int?.isSome) && f.result.int?.isSome

namespace Resolved

def unaryFolds (op : UnaryOp) (scope : Scope) : Except Error (Resolved V) → List Fold
  | .ok (host s) =>
    match s.unary op scope with
    | .ok r => [⟨[s], r⟩]
    | .error _ => []
  | _ => []

def binaryFolds (op : BinaryOp) (scope : Scope) :
    Except Error (Resolved V) → Except Error (Resolved V) → List Fold
  | .ok (host a), .ok (host b) =>
    match a.binary op b scope with
    | .ok r => [⟨[a, b], r⟩]
    | .error _ => []
  | _, _ => []

def totalFolds (scope : Scope) (total : Scalar) : List Scalar → List Fold
  | [] => []
  | s :: ss =>
    match total.binary .add s scope with
    | .ok r => ⟨[total, s], r⟩ :: totalFolds scope r ss
    | .error _ => []

def sumFolds (scope : Scope) : Except Error (List (Resolved V)) → List Fold
  | .ok (t :: u :: ts) =>
    match hosts? (t :: u :: ts) with
    | some ss => totalFolds scope (.int 0) ss
    | none => []
  | _ => []

end Resolved

mutual

/-- The folds that the evaluation of an expression makes outside index positions and
conditions. -/
def Expr.folds (st : Setting V) (scope : Scope) : Expr → List Fold
  | .number _ => []
  | .string _ => []
  | .indexVar _ => []
  | .ref _ _ => []
  | .refAt _ _ _ => []
  | .unary op e => e.folds st scope ++ Resolved.unaryFolds op scope (e.eval st scope)
  | .binary op l r =>
    l.folds st scope ++ r.folds st scope
      ++ Resolved.binaryFolds op scope (l.eval st scope) (r.eval st scope)
  | .aggregate a => Aggregation.folds st scope a

def Aggregation.folds (st : Setting V) (scope : Scope) : Aggregation Expr → List Fold
  | ⟨_, body, ranges, condition⟩ =>
    match st.axes (ranges.map Range.set) with
    | .ok axes =>
      let admitted := (tuples axes).filter (Aggregation.admits st scope ranges condition)
      admitted.flatMap (fun t => body.folds st (Aggregation.inner scope ranges t))
        ++ Resolved.sumFolds scope
          (Aggregation.terms st scope body ranges condition (tuples axes))
    | .error _ => []

end

end Milp
