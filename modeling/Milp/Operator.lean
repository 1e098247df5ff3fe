import Milp.Error

/-! The operators of expressions and comparisons. Each has a name, under which documents list
it; some are displayed by a symbol. Reading accepts the name and, except for aggregators, the
symbol. -/
namespace Milp

inductive UnaryOp where
  | negate
  | sin
  | cos
  | tan
  | exp
  | log
deriving DecidableEq, Repr

namespace UnaryOp

def name : UnaryOp → String
  | negate => "negate"
  | sin => "sin"
  | cos => "cos"
  | tan => "tan"
  | exp => "exp"
  | log => "log"

def text : UnaryOp → String
  | negate => "-"
  | op => op.name

def named : List (String × UnaryOp) :=
  [("negate", negate), ("sub", negate), ("sin", sin), ("cos", cos), ("tan", tan), ("exp", exp),
    ("log", log)]

def parse (s : String) : Except Error UnaryOp :=
  match (("-", negate) :: named).lookup s with
  | some op => .ok op
  | none => .error (.unsupportedOperator s)

def apply : UnaryOp → Float → Float
  | negate, x => -x
  | sin, x => x.sin
  | cos, x => x.cos
  | tan, x => x.tan
  | exp, x => x.exp
  | log, x => x.log

end UnaryOp

inductive BinaryOp where
  | add
  | sub
  | mul
  | div
deriving DecidableEq, Repr

namespace BinaryOp

def name : BinaryOp → String
  | add => "add"
  | sub => "sub"
  | mul => "mul"
  | div => "div"

def symbol : BinaryOp → String
  | add => "+"
  | sub => "-"
  | mul => "*"
  | div => "/"

def all : List BinaryOp := [add, sub, mul, div]

def named : List (String × BinaryOp) := all.map fun op => (op.name, op)

def parse (s : String) : Except Error BinaryOp :=
  match (named ++ all.map fun op => (op.symbol, op)).lookup s with
  | some op => .ok op
  | none => .error (.unsupportedOperator s)

end BinaryOp

/-- Folds over bound index variables. Only sums are evaluated. -/
inductive Aggregator where
  | sum
  | prod
  | min
  | max
deriving DecidableEq, Repr

namespace Aggregator

def name : Aggregator → String
  | sum => "sum"
  | prod => "prod"
  | min => "min"
  | max => "max"

def all : List Aggregator := [sum, prod, min, max]

def named : List (String × Aggregator) := all.map fun op => (op.name, op)

def parse (s : String) : Except Error Aggregator :=
  match named.lookup s with
  | some op => .ok op
  | none => .error (.unsupportedAggregator s)

end Aggregator

inductive Relation where
  | le
  | lt
  | eq
  | gt
  | ge
  | ne
deriving DecidableEq, Repr

namespace Relation

def name : Relation → String
  | le => "le"
  | lt => "lt"
  | eq => "eq"
  | gt => "gt"
  | ge => "ge"
  | ne => "ne"

def symbol : Relation → String
  | le => "<="
  | lt => "<"
  | eq => "=="
  | gt => ">"
  | ge => ">="
  | ne => "!="

def all : List Relation := [le, lt, eq, gt, ge, ne]

def named : List (String × Relation) := all.map fun r => (r.name, r)

def parse (s : String) : Except Error Relation :=
  match (("=", eq) :: named ++ all.map fun r => (r.symbol, r)).lookup s with
  | some r => .ok r
  | none => .error (.unsupportedOperator s)

def holds : Relation → Ordering → Bool
  | le, o => o.isLE
  | lt, o => o.isLT
  | eq, o => o.isEq
  | gt, o => o.isGT
  | ge, o => o.isGE
  | ne, o => o.isNe

end Relation

end Milp
