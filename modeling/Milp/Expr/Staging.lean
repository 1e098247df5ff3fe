import Milp.Expr.Basic

/-! Static checks of index positions and filter conditions. Both are evaluated before any
decision variable has a value, so only index expressions may stand there: literals, index
variables, and operators on them. -/
namespace Milp

namespace Expr

def isIndexExpr : Expr → Bool
  | number _ => true
  | string _ => true
  | indexVar _ => true
  | ref _ _ => false
  | refAt _ _ _ => false
  | unary _ e => e.isIndexExpr
  | binary _ l r => l.isIndexExpr && r.isIndexExpr
  | aggregate _ => false

/-- Checks that an expression may stand in an index position of `owner`; the failure names the
first part that may not. -/
def checkIndex (owner : String) : Expr → Except Error Unit
  | number _ => .ok ()
  | string _ => .ok ()
  | indexVar _ => .ok ()
  | ref _ name | refAt _ name _ =>
    .error (.invalidIndex owner
      ("reference to " ++ quoted name ++ " cannot appear in an index position") [])
  | unary _ e => e.checkIndex owner
  | binary _ l r => do
    l.checkIndex owner
    r.checkIndex owner
  | aggregate a =>
    .error (.invalidIndex owner (a.op.name ++ " aggregation cannot appear in an index position") [])

end Expr

def Comparison.checkIndex (c : Comparison Expr) : Except Error Unit := do
  c.left.checkIndex c.text
  c.right.checkIndex c.text

def Condition.check : Option (Comparison Expr) → Except Error Unit
  | none => .ok ()
  | some c => c.checkIndex

/-- Checks every index position and filter condition of an expression. -/
def Expr.check : Expr → Except Error Unit
  | number _ => .ok ()
  | string _ => .ok ()
  | indexVar _ => .ok ()
  | ref _ _ => .ok ()
  | refAt _ name positions => positions.forM fun p => p.checkIndex name
  | unary _ e => e.check
  | binary _ l r => do
    l.check
    r.check
  | aggregate ⟨_, body, _, condition⟩ => do
    Condition.check condition
    body.check

def Comparison.check (c : Comparison Expr) : Except Error Unit := do
  c.left.check
  c.right.check

end Milp
