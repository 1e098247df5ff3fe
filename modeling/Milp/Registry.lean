import Milp.Declaration.IndexSet
import Milp.Declaration.Parameter
import Milp.Declaration.Variable

/-! Registries: lists of declarations with one entry per name, in the order in which the names
were first added. Replacing an entry keeps its place. -/
namespace Milp

class Named (α : Type) where
  name : α → String

instance : Named IndexSet := ⟨IndexSet.name⟩
instance : Named Parameter := ⟨Parameter.name⟩
instance : Named Variable := ⟨Variable.name⟩

structure Registry (α : Type) where
  items : List α

namespace Registry

variable {α : Type} [Named α]

def empty : Registry α := ⟨[]⟩

/-- Replaces the first entry of the same name, or appends. -/
def place (x : α) : List α → List α
  | [] => [x]
  | y :: ys => if Named.name y = Named.name x then x :: ys else y :: place x ys

def dropNamed (name : String) : List α → List α
  | [] => []
  | y :: ys => if Named.name y = name then ys else y :: dropNamed name ys

def get? (r : Registry α) (name : String) : Option α :=
  r.items.find? fun x => Named.name x == name

def contains (r : Registry α) (name : String) : Bool := (r.get? name).isSome

def insert (r : Registry α) (x : α) : Registry α := ⟨place x r.items⟩

def erase (r : Registry α) (name : String) : Registry α := ⟨dropNamed name r.items⟩

def upsert (r : Registry α) (x : α) : Option α × Registry α :=
  (r.get? (Named.name x), r.insert x)

def remove (r : Registry α) (name : String) : Option α × Registry α :=
  (r.get? name, r.erase name)

/-- The registry of a list of declarations, of which later ones replace earlier ones. -/
def ofList (xs : List α) : Registry α := xs.foldl insert empty

def names (r : Registry α) : List String := r.items.map Named.name

def size (r : Registry α) : Nat := r.items.length

end Registry

end Milp
