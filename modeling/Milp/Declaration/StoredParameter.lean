import Milp.Declaration.Parameter

/-! Stored parameters: parameters with the table that their lookups go through. The table is filled
entry by entry while the entries are checked, so that an entry whose tuple is taken is found by the
table itself. `Parameter` describes the same lookups as searches through the entries. -/
namespace Milp

/-- Values by their tuples; the latest value of a tuple stands first. -/
abbrev ValueTable := List (Tuple × Float)

namespace ValueTable

def insert (table : ValueTable) (index : Tuple) (value : Float) : Option Float × ValueTable :=
  (table.lookup index, (index, value) :: table)

/-- Puts entries into a table up to the first that has another arity or whose tuple is taken. -/
def fill (name : String) (arity : Nat) (table : ValueTable) : List Entry → Except Error ValueTable
  | [] => .ok table
  | e :: es =>
    if e.index.length ≠ arity then .error (.arity .parameter name arity e.index.length [])
    else match table.insert e.index e.value with
      | (some _, _) => .error (.repeatedIndex name e.index)
      | (none, table) => fill name arity table es

end ValueTable

structure StoredParameter where
  declaration : Parameter
  table : ValueTable
deriving DecidableEq

namespace StoredParameter

def make (name : String) (indices : List String) (values : ParameterValues) :
    Except Error StoredParameter :=
  match values with
  | .scalar _ => .ok ⟨⟨name, indices, values⟩, []⟩
  | .listed entries =>
    match ValueTable.fill name indices.length [] entries with
    | .error e => .error e
    | .ok table => .ok ⟨⟨name, indices, values⟩, table⟩

def get? (p : StoredParameter) (index : Tuple) : Option Number :=
  match p.declaration.values with
  | .scalar v => some v
  | .listed _ => (p.table.lookup index).map .float

def value (p : StoredParameter) (index : Tuple) : Except Error Number :=
  match p.declaration.checkArity index with
  | .error e => .error e
  | .ok () =>
    match p.get? index with
    | some v => .ok v
    | none => .error (.missingValue p.declaration.name index [])

/-- Whether there is a value at a tuple. A scalar has one everywhere, without an arity check. -/
def hasIndex (p : StoredParameter) (index : Tuple) : Except Error Bool :=
  if p.declaration.isScalar then .ok true
  else match p.declaration.checkArity index with
    | .error e => .error e
    | .ok () => .ok (p.table.lookup index).isSome

end StoredParameter

end Milp
