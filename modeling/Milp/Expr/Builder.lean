import Milp.Expr.Basic

/-! Short constructors for writing models in code. -/
namespace Milp

namespace Expr

def int (v : Int64) : Expr := number (.int v)

def float (x : Float) : Expr := number (.float x)

def var (name : String) (positions : List Expr) : Expr := refAt .variable name positions

def param (name : String) (positions : List Expr) : Expr := refAt .parameter name positions

def negate (e : Expr) : Expr := unary .negate e

def sum (body : Expr) (ranges : List Range) (condition : Option (Comparison Expr) := none) :
    Expr :=
  aggregate ⟨.sum, body, ranges, condition⟩

def binaryNamed (op : String) (left right : Expr) : Except Error Expr := do
  return binary (← BinaryOp.parse op) left right

def unaryNamed (op : String) (operand : Expr) : Except Error Expr := do
  return unary (← UnaryOp.parse op) operand

instance : Add Expr := ⟨binary .add⟩
instance : Sub Expr := ⟨binary .sub⟩
instance : Mul Expr := ⟨binary .mul⟩
instance : Div Expr := ⟨binary .div⟩
instance : Neg Expr := ⟨negate⟩

end Expr

namespace Comparison

def plain (left : Expr) (relation : Relation) (right : Expr) : Comparison Expr :=
  ⟨.comparison, left, relation, right⟩

def index (left : Expr) (relation : Relation) (right : Expr) : Comparison Expr :=
  ⟨.indexComparison, left, relation, right⟩

end Comparison

end Milp
