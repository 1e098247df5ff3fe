import Milp.Evaluation

/-! Expansion of constraints. A quantified constraint becomes one instance per tuple of the
product of its sets, first quantifier outermost, for which every condition holds; all
quantifiers are in scope in every condition. -/
namespace Milp

variable {V : Type}

/-- One concrete comparison. There is no index when the constraint is unquantified. -/
structure Instance (V : Type) where
  index : Option Tuple
  comparison : ResolvedComparison V

structure Expansion (V : Type) where
  instances : List (Instance V)
  /-- How many tuples a condition left out. -/
  skipped : Nat

/-- Whether the conditions of quantifiers hold, tried in order up to the first that fails. -/
def Quantifier.allHold (st : Setting V) (scope : Scope) : List Quantifier → Except Error Bool
  | [] => .ok true
  | q :: qs => do
    if ← Condition.eval st scope q.condition then Quantifier.allHold st scope qs
    else return false

namespace Constraint

def scope (qs : List Quantifier) (t : Tuple) : Scope :=
  Scope.root.child ((qs.map Quantifier.index).zip t)

def extend (st : Setting V) (body : Comparison Expr) (qs : List Quantifier)
    (soFar : Expansion V) (t : Tuple) : Except Error (Expansion V) := do
  let scope := Constraint.scope qs t
  if ← Quantifier.allHold st scope qs then
    let comparison ← Comparison.eval st scope body
    return { soFar with instances := ⟨some t, comparison⟩ :: soFar.instances }
  else return { soFar with skipped := soFar.skipped + 1 }

def expand (st : Setting V) (c : Constraint) : Except Error (Expansion V) :=
  match c.quantifiers with
  | [] => do
    let comparison ← Comparison.eval st Scope.root c.body
    return ⟨[⟨none, comparison⟩], 0⟩
  | qs => do
    let axes ← st.axes (qs.map Quantifier.set)
    match exceeded? axes st.limits.instances with
    | some (size, limit) => .error (.limitExceeded c.name size limit)
    | none =>
      let e ← Odometer.forAll axes (extend st c.body qs) ⟨[], 0⟩
      return { e with instances := e.instances.reverse }

end Constraint

end Milp
