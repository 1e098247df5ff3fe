import Milp.Config
import Milp.Constraint
import Milp.Odometer
import Milp.Scalar.Arithmetic
import Milp.Scalar.Ordering
import Milp.Symbolic

/-! Evaluation of expressions. An expression is read in a setting, which holds the declarations
and knows the handles of decision variables, and in an index scope. Operators on host values are
folded at once; everything that depends on a decision variable becomes a symbolic expression.
Operands, index positions and tuples are evaluated from left to right, and the first failure is
the result. -/
namespace Milp

structure Setting (V : Type) where
  sets : Registry IndexSet
  parameters : Registry Parameter
  vars : Registry Variable
  /-- The handle of a member of a declared family. -/
  handle : String → Tuple → Option V
  limits : Limits := {}

variable {V : Type}

namespace Setting

def elements (st : Setting V) (name : String) : Except Error (List Element) :=
  match st.sets.get? name with
  | some s => .ok s.elements
  | none => .error (.unknownSet name)

def axes (st : Setting V) (names : List String) : Except Error (List (List Element)) :=
  names.mapM st.elements

end Setting

/-- The size of a product and its limit, where the size is beyond the limit. -/
def exceeded? (axes : List (List Element)) (limit : Option Nat) : Option (Nat × Nat) :=
  match limit with
  | none => none
  | some l =>
    let size := (Odometer.start axes).size
    if l < size then some (size, l) else none

namespace Resolved

/-- A value as an operand of a symbolic expression; a string is none. -/
def lift (op : String) (scope : Scope) : Resolved V → Except Error (Symbolic V)
  | symbolic e => .ok e
  | host (.int v) => .ok (.const (.int v))
  | host (.float x) => .ok (.const (.float x))
  | host (.str s) =>
    .error (.typeMismatch op ("string operand " ++ quoted s ++ " in a symbolic expression")
      scope.snapshot)

def hosts? : List (Resolved V) → Option (List Scalar)
  | [] => some []
  | host s :: vs => (hosts? vs).map (s :: ·)
  | symbolic _ :: _ => none

def unary (op : UnaryOp) (scope : Scope) : Resolved V → Except Error (Resolved V)
  | host s => do return host (← s.unary op scope)
  | symbolic e =>
    match op with
    | .negate => .ok (symbolic (.neg e))
    | op => .ok (symbolic (.call op e))

def node (op : BinaryOp) (l r : Symbolic V) : Symbolic V :=
  match op with
  | .add => .sum [l, r]
  | .sub => .difference l r
  | .mul => .product l r
  | .div => .quotient l r

def binary (op : BinaryOp) (scope : Scope) (l r : Resolved V) : Except Error (Resolved V) :=
  match l, r with
  | host a, host b => do return host (← a.binary op b scope)
  | l, r => do
    let l ← l.lift op.name scope
    let r ← r.lift op.name scope
    return symbolic (node op l r)

/-- The sum of evaluated terms: zero for none, the term itself for one, folded from zero when
all are host values, and symbolic otherwise. -/
def sum (scope : Scope) (terms : List (Resolved V)) : Except Error (Resolved V) :=
  match terms with
  | [] => .ok (host (.int 0))
  | [t] => .ok t
  | ts =>
    match hosts? ts with
    | some ss => do return host (← ss.foldlM (fun total s => total.binary .add s scope) (.int 0))
    | none => do return symbolic (.sum (← ts.mapM fun t => t.lift Aggregator.sum.name scope))

def position (name : String) (expr : Expr) (scope : Scope) : Resolved V → Except Error Element
  | host s =>
    match s.element? with
    | some e => .ok e
    | none =>
      .error (.invalidIndex name
        (quoted expr.text ++ " evaluated to " ++ s.kind ++ " " ++ quoted s.text) scope.snapshot)
  | symbolic _ =>
    .error (.invalidIndex name (quoted expr.text ++ " references a decision variable")
      scope.snapshot)

end Resolved

def Setting.lookup (st : Setting V) (kind : RefKind) (name : String) (index : Tuple)
    (scope : Scope) : Except Error (Resolved V) :=
  match kind with
  | .variable =>
    match st.handle name index with
    | some v => .ok (.symbolic (.var v))
    | none => .error (.outOfRange name index scope.snapshot)
  | .parameter =>
    match (st.parameters.get? name).bind fun p => p.get? index with
    | some v => .ok (.host (.ofNumber v))
    | none => .error (.missingValue name index scope.snapshot)

def Setting.dimension (st : Setting V) (kind : RefKind) (name : String) (scope : Scope) :
    Except Error Nat :=
  match kind with
  | .variable =>
    match st.vars.get? name with
    | some v => .ok v.dimension
    | none => .error (.unknownVariable name scope.snapshot)
  | .parameter =>
    match st.parameters.get? name with
    | some p => .ok p.dimension
    | none => .error (.unknownParameter name scope.snapshot)

def Setting.checkArity (st : Setting V) (kind : RefKind) (name : String) (found : Nat)
    (scope : Scope) : Except Error Unit :=
  match st.dimension kind name scope with
  | .error e => .error e
  | .ok expected =>
    if found ≠ expected then .error (.arity kind name expected found scope.snapshot) else .ok ()

def ResolvedComparison.decide (c : Comparison Expr) (scope : Scope) (r : ResolvedComparison V) :
    Except Error Bool :=
  match r.left, r.right with
  | .host a, .host b => Scalar.related r.relation a b scope
  | _, _ => .error (.symbolicCondition c.text scope.snapshot)

mutual

def Expr.eval (st : Setting V) (scope : Scope) : Expr → Except Error (Resolved V)
  | .number n => .ok (.host (.ofNumber n))
  | .string s => .ok (.host (.str s))
  | .indexVar name =>
    match scope.get? name with
    | some e => .ok (.host (.ofElement e))
    | none => .error (.unboundIndex name scope.snapshot)
  | .ref kind name => do
    st.checkArity kind name 0 scope
    st.lookup kind name [] scope
  | .refAt kind name positions => do
    st.checkArity kind name positions.length scope
    let index ← Expr.evalPositions st scope name positions
    st.lookup kind name index scope
  | .unary op e => do
    let v ← e.eval st scope
    v.unary op scope
  | .binary op l r => do
    let l ← l.eval st scope
    let r ← r.eval st scope
    Resolved.binary op scope l r
  | .aggregate a => Aggregation.eval st scope a

def Expr.evalPositions (st : Setting V) (scope : Scope) (name : String) :
    List Expr → Except Error Tuple
  | [] => .ok []
  | e :: es => do
    let v ← e.eval st scope
    let x ← v.position name e scope
    let xs ← Expr.evalPositions st scope name es
    return x :: xs

/-- The value of an aggregation. The ranges are layered over the outer scope. -/
def Aggregation.eval (st : Setting V) (scope : Scope) :
    Aggregation Expr → Except Error (Resolved V)
  | ⟨op, body, ranges, condition⟩ =>
    if op = .sum then do
      let axes ← st.axes (ranges.map Range.set)
      match exceeded? axes st.limits.terms with
      | some (size, limit) =>
        .error (.limitExceeded (Aggregation.text ⟨op, body, ranges, condition⟩) size limit)
      | none =>
        let terms ← Odometer.forAll axes (fun terms t => do
          let inner := scope.child ((ranges.map Range.index).zip t)
          if ← Condition.eval st inner condition then
            let v ← body.eval st inner
            return v :: terms
          else return terms) []
        Resolved.sum scope terms.reverse
    else .error (.unsupportedAggregator op.name)

def Condition.eval (st : Setting V) (scope : Scope) :
    Option (Comparison Expr) → Except Error Bool
  | none => .ok true
  | some c => do
    let r ← Comparison.eval st scope c
    r.decide c scope

def Comparison.eval (st : Setting V) (scope : Scope) :
    Comparison Expr → Except Error (ResolvedComparison V)
  | ⟨_, l, relation, r⟩ => do
    let l ← l.eval st scope
    let r ← r.eval st scope
    return ⟨l, relation, r⟩

end

end Milp
