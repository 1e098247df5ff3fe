import Milp.Operator
import Milp.Scalar

/-! Expressions of declarative models. An expression is evaluated in an index scope and gives a
host value or a value that depends on decision variables. A reference may have no index list, or
one that may be empty; both address an unindexed declaration. -/
namespace Milp

/-- How a comparison is tagged in documents. The two forms mean the same. -/
inductive ComparisonForm where
  | comparison
  | indexComparison
deriving DecidableEq, Repr

structure Comparison (α : Type) where
  form : ComparisonForm
  left : α
  relation : Relation
  right : α

structure Range where
  index : String
  set : String
deriving DecidableEq, Repr

structure Aggregation (α : Type) where
  op : Aggregator
  body : α
  ranges : List Range
  condition : Option (Comparison α)

inductive Expr where
  | number (value : Number)
  | string (text : String)
  /-- An index variable, bound by a quantifier or an aggregation. -/
  | indexVar (name : String)
  /-- A reference without an index list. -/
  | ref (kind : RefKind) (name : String)
  /-- A reference with an index list. -/
  | refAt (kind : RefKind) (name : String) (positions : List Expr)
  | unary (op : UnaryOp) (operand : Expr)
  | binary (op : BinaryOp) (left right : Expr)
  | aggregate (aggregation : Aggregation Expr)

mutual

def Expr.text : Expr → String
  | .number value => value.text
  | .string s => s
  | .indexVar name => name
  | .ref _ name => name
  | .refAt _ name positions =>
    match Expr.texts positions with
    | [] => name
    | ts => name ++ "[" ++ ", ".intercalate ts ++ "]"
  | .unary .negate e => "(-" ++ e.text ++ ")"
  | .unary op e => "(" ++ op.name ++ " " ++ e.text ++ ")"
  | .binary op l r => "(" ++ l.text ++ " " ++ op.symbol ++ " " ++ r.text ++ ")"
  | .aggregate a => Aggregation.text a

def Expr.texts : List Expr → List String
  | [] => []
  | e :: es => e.text :: Expr.texts es

def Aggregation.text : Aggregation Expr → String
  | ⟨op, body, ranges, condition⟩ =>
    op.name ++ "(" ++ body.text ++ " for "
      ++ ", ".intercalate (ranges.map fun r => r.index ++ " in " ++ r.set)
      ++ Condition.suffix condition ++ ")"

def Condition.suffix : Option (Comparison Expr) → String
  | none => ""
  | some c => " if " ++ Comparison.text c

def Comparison.text : Comparison Expr → String
  | ⟨_, l, relation, r⟩ => l.text ++ " " ++ relation.symbol ++ " " ++ r.text

end

mutual

/-- Sameness up to the numeric value of float literals. -/
def Expr.same : Expr → Expr → Bool
  | .number a, .number b => a.same b
  | .string a, .string b => a == b
  | .indexVar a, .indexVar b => a == b
  | .ref k a, .ref l b => k == l && a == b
  | .refAt k a ps, .refAt l b qs => k == l && a == b && Expr.sameAll ps qs
  | .unary o a, .unary p b => o == p && a.same b
  | .binary o a b, .binary p c d => o == p && a.same c && b.same d
  | .aggregate a, .aggregate b => Aggregation.same a b
  | _, _ => false

def Expr.sameAll : List Expr → List Expr → Bool
  | [], [] => true
  | a :: as, b :: bs => a.same b && Expr.sameAll as bs
  | _, _ => false

def Aggregation.same : Aggregation Expr → Aggregation Expr → Bool
  | ⟨o, a, rs, c⟩, ⟨p, b, ss, d⟩ => o == p && a.same b && rs == ss && Condition.same c d

def Condition.same : Option (Comparison Expr) → Option (Comparison Expr) → Bool
  | none, none => true
  | some c, some d => Comparison.same c d
  | _, _ => false

def Comparison.same : Comparison Expr → Comparison Expr → Bool
  | ⟨f, a, o, b⟩, ⟨g, c, p, d⟩ => f == g && a.same c && o == p && b.same d

end

end Milp
