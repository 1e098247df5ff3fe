import Milp.Declaration.IndexSet
import Milp.Declaration.Parameter
import Milp.Odometer

/-! Parameter tables over whole products of index sets. -/
namespace Milp.Examples

def table (name : String) (sets : List IndexSet) (values : List Float) : Parameter :=
  ⟨name, sets.map IndexSet.name,
    .listed (List.zipWith Entry.mk (tuples (sets.map IndexSet.elements)) values)⟩

end Milp.Examples
