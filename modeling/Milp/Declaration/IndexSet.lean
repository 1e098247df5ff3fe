import Milp.Error

/-! Index sets: named lists of elements. The order of the elements is the order in which
everything that ranges over the set enumerates them. -/
namespace Milp

structure IndexSet where
  name : String
  elements : List Element
deriving DecidableEq

/-- The first element of a list that occurs before it, in the list or among those seen. -/
def firstRepeat? (seen : List Element) : List Element → Option Element
  | [] => none
  | e :: es => if e ∈ seen then some e else firstRepeat? (e :: seen) es

namespace IndexSet

def isMixed (s : IndexSet) : Bool :=
  s.elements.any Element.isInt && s.elements.any fun e => !e.isInt

/-- Checks that the elements are of one kind, and then that they are distinct. -/
def check (s : IndexSet) : Except Error Unit :=
  if s.isMixed then .error (.mixedSet s.name)
  else match firstRepeat? [] s.elements with
    | some e => .error (.repeatedElement s.name e)
    | none => .ok ()

end IndexSet

end Milp
