import Milp.Operator
import Milp.Scalar

/-! Values of evaluated expressions. A value is a host scalar or a symbolic expression over
handles of decision variables; a symbolic expression keeps the tree shape of its source, with
sums flattened into lists of terms. -/
namespace Milp

inductive Symbolic (V : Type) where
  | var (handle : V)
  | const (value : Number)
  /-- A sum of terms in the order of their evaluation. -/
  | sum (terms : List (Symbolic V))
  | difference (left right : Symbolic V)
  | product (left right : Symbolic V)
  | quotient (left right : Symbolic V)
  | neg (operand : Symbolic V)
  | call (op : UnaryOp) (operand : Symbolic V)

namespace Symbolic

variable {V W : Type}

mutual

/-- The handles from left to right, with repetitions. -/
def vars : Symbolic V → List V
  | var v => [v]
  | const _ => []
  | sum ts => varsAll ts
  | difference l r => l.vars ++ r.vars
  | product l r => l.vars ++ r.vars
  | quotient l r => l.vars ++ r.vars
  | neg e => e.vars
  | call _ e => e.vars

def varsAll : List (Symbolic V) → List V
  | [] => []
  | t :: ts => t.vars ++ varsAll ts

end

def termCount : Symbolic V → Nat
  | sum ts => ts.length
  | _ => 1

mutual

/-- Replaces every handle by the result of an action, from left to right. -/
def mapM {m : Type → Type} [Monad m] (f : V → m W) : Symbolic V → m (Symbolic W)
  | var v => do return var (← f v)
  | const n => return const n
  | sum ts => do return sum (← mapAllM f ts)
  | difference l r => do
    let l ← l.mapM f
    let r ← r.mapM f
    return difference l r
  | product l r => do
    let l ← l.mapM f
    let r ← r.mapM f
    return product l r
  | quotient l r => do
    let l ← l.mapM f
    let r ← r.mapM f
    return quotient l r
  | neg e => do return neg (← e.mapM f)
  | call op e => do return call op (← e.mapM f)

def mapAllM {m : Type → Type} [Monad m] (f : V → m W) : List (Symbolic V) → m (List (Symbolic W))
  | [] => return []
  | t :: ts => do
    let t ← t.mapM f
    let ts ← mapAllM f ts
    return t :: ts

end

mutual

def text (handle : V → String) : Symbolic V → String
  | var v => handle v
  | const n => n.text
  | sum ts => "(" ++ " + ".intercalate (texts handle ts) ++ ")"
  | difference l r => "(" ++ l.text handle ++ " - " ++ r.text handle ++ ")"
  | product l r => "(" ++ l.text handle ++ " * " ++ r.text handle ++ ")"
  | quotient l r => "(" ++ l.text handle ++ " / " ++ r.text handle ++ ")"
  | neg e => "(-" ++ e.text handle ++ ")"
  | call op e => "(" ++ op.text ++ " " ++ e.text handle ++ ")"

def texts (handle : V → String) : List (Symbolic V) → List String
  | [] => []
  | t :: ts => t.text handle :: texts handle ts

end

end Symbolic

inductive Resolved (V : Type) where
  | host (value : Scalar)
  | symbolic (expr : Symbolic V)

namespace Resolved

variable {V : Type}

def isHost : Resolved V → Bool
  | host _ => true
  | symbolic _ => false

/-- The value as a symbolic expression; a string has none. -/
def toSymbolic? : Resolved V → Option (Symbolic V)
  | host s => s.number?.map .const
  | symbolic e => some e

/-- The number of top-level terms; a host value counts as one. -/
def termCount : Resolved V → Nat
  | host _ => 1
  | symbolic e => e.termCount

def text (handle : V → String) : Resolved V → String
  | host s => s.text
  | symbolic e => e.text handle

end Resolved

structure ResolvedComparison (V : Type) where
  left : Resolved V
  relation : Relation
  right : Resolved V

namespace ResolvedComparison

variable {V : Type}

def isHost (c : ResolvedComparison V) : Bool := c.left.isHost && c.right.isHost

def text (handle : V → String) (c : ResolvedComparison V) : String :=
  c.left.text handle ++ " " ++ c.relation.symbol ++ " " ++ c.right.text handle

end ResolvedComparison

end Milp
