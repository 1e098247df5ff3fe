import Milp.Expr.Staging
import Milp.Registry

/-! Constraints and the objective. A constraint stands for one comparison per tuple of the
product of its quantified sets that satisfies the quantifiers' conditions. -/
namespace Milp

structure Quantifier where
  index : String
  set : String
  condition : Option (Comparison Expr) := none

/-- A named comparison. The quantifiers come outermost first; a missing list and an empty one
both mean that the constraint is unquantified. -/
structure Constraint where
  name : String
  body : Comparison Expr
  quantifierList : Option (List Quantifier) := none

inductive Sense where
  | min
  | max
deriving DecidableEq, Repr

structure Objective where
  name : String
  expr : Expr
  sense : Sense := .min

def Quantifier.text (q : Quantifier) : String :=
  "for " ++ q.index ++ " in " ++ q.set ++ Condition.suffix q.condition

def Quantifier.same (a b : Quantifier) : Bool :=
  a.index == b.index && a.set == b.set && Condition.same a.condition b.condition

namespace Constraint

instance : Named Constraint := ⟨Constraint.name⟩

def forAll (name : String) (body : Comparison Expr) (quantifiers : List Quantifier) : Constraint :=
  ⟨name, body, if quantifiers.isEmpty then none else some quantifiers⟩

def quantifiers (c : Constraint) : List Quantifier := c.quantifierList.getD []

def isQuantified (c : Constraint) : Bool := !c.quantifiers.isEmpty

def text (c : Constraint) : String :=
  match c.quantifiers with
  | [] => c.body.text
  | qs => c.body.text ++ " " ++ ", ".intercalate (qs.map Quantifier.text)

def check (c : Constraint) : Except Error Unit := do
  c.body.check
  c.quantifiers.forM fun q => Condition.check q.condition

def same (a b : Constraint) : Bool :=
  a.name == b.name && Comparison.same a.body b.body &&
    match a.quantifierList, b.quantifierList with
    | none, none => true
    | some ps, some qs => ps.length == qs.length && (ps.zip qs).all fun (p, q) => p.same q
    | _, _ => false

end Constraint

def Sense.name : Sense → String
  | .min => "min"
  | .max => "max"

namespace Objective

def text (o : Objective) : String := o.sense.name ++ " " ++ o.name ++ ": " ++ o.expr.text

def same (a b : Objective) : Bool :=
  a.name == b.name && a.expr.same b.expr && a.sense == b.sense

end Objective

end Milp
