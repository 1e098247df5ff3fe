/-! Decision variables. A declaration over index sets stands for a family with one member per
tuple of their product; all members share the domain and the bounds. -/
namespace Milp

inductive Domain where
  | real
  | nonnegativeReal
  | integer
  | nonnegativeInteger
  | binary
deriving DecidableEq, Repr

namespace Domain

def name : Domain → String
  | real => "Reals"
  | nonnegativeReal => "NonNegativeReals"
  | integer => "Integers"
  | nonnegativeInteger => "NonNegativeIntegers"
  | binary => "Binary"

def all : List Domain := [real, nonnegativeReal, integer, nonnegativeInteger, binary]

def isContinuous : Domain → Bool
  | real => true
  | nonnegativeReal => true
  | _ => false

def isInteger (d : Domain) : Bool := !d.isContinuous

end Domain

structure Variable where
  name : String
  indices : List String := []
  domain : Domain := .nonnegativeReal
  lower : Option Float := none
  upper : Option Float := none
deriving DecidableEq

namespace Variable

def dimension (v : Variable) : Nat := v.indices.length

def isContinuous (v : Variable) : Bool := v.domain.isContinuous

def isInteger (v : Variable) : Bool := v.domain.isInteger

def isBinary (v : Variable) : Bool := v.domain == .binary

def same (a b : Variable) : Bool :=
  a.name == b.name && a.indices == b.indices && a.domain == b.domain &&
    a.lower == b.lower && a.upper == b.upper

end Variable

end Milp
