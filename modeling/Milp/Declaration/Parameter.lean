import Milp.Error
import Milp.Scalar

/-! Numeric parameters. A parameter is either one scalar, which answers every index, or a table
that lists the tuples it has values for. A table has no default: a tuple that it does not list
has no value. -/
namespace Milp

structure Entry where
  index : Tuple
  value : Float
deriving DecidableEq

inductive ParameterValues where
  | scalar (value : Number)
  | listed (entries : List Entry)
deriving DecidableEq

structure Parameter where
  name : String
  indices : List String
  values : ParameterValues
deriving DecidableEq

/-- The failure of the first entry that has another arity, or repeats an earlier tuple. -/
def checkEntries (name : String) (arity : Nat) (seen : List Tuple) :
    List Entry → Except Error Unit
  | [] => .ok ()
  | e :: es =>
    if e.index.length ≠ arity then .error (.arity .parameter name arity e.index.length [])
    else if e.index ∈ seen then .error (.repeatedIndex name e.index)
    else checkEntries name arity (e.index :: seen) es

namespace Parameter

def make (name : String) (indices : List String) (values : ParameterValues) :
    Except Error Parameter :=
  match values with
  | .scalar _ => .ok ⟨name, indices, values⟩
  | .listed entries =>
    match checkEntries name indices.length [] entries with
    | .error e => .error e
    | .ok () => .ok ⟨name, indices, values⟩

def ofScalar (name : String) (value : Number) : Parameter := ⟨name, [], .scalar value⟩

def dimension (p : Parameter) : Nat := p.indices.length

def isScalar (p : Parameter) : Bool :=
  match p.values with
  | .scalar _ => true
  | .listed _ => false

/-- The value at a tuple, whatever its arity. -/
def get? (p : Parameter) (index : Tuple) : Option Number :=
  match p.values with
  | .scalar v => some v
  | .listed entries => (entries.find? fun e => e.index == index).map fun e => .float e.value

def checkArity (p : Parameter) (index : Tuple) : Except Error Unit :=
  if index.length ≠ p.dimension then
    .error (.arity .parameter p.name p.dimension index.length [])
  else .ok ()

def value (p : Parameter) (index : Tuple) : Except Error Number :=
  match p.checkArity index with
  | .error e => .error e
  | .ok () =>
    match p.get? index with
    | some v => .ok v
    | none => .error (.missingValue p.name index [])

end Parameter

def ParameterValues.same : ParameterValues → ParameterValues → Bool
  | .scalar a, .scalar b => a.same b
  | .listed as, .listed bs =>
    as.length == bs.length &&
      (as.zip bs).all fun (a, b) => a.index == b.index && a.value == b.value
  | _, _ => false

def Parameter.same (a b : Parameter) : Bool :=
  a.name == b.name && a.indices == b.indices && a.values.same b.values

end Milp
