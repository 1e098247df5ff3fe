/-! Set elements and index tuples. An element is an integer or a string; a tuple is one element
per index position. -/
namespace Milp

inductive Element where
  | int (value : Int64)
  | str (text : String)
deriving DecidableEq, Repr, Inhabited

namespace Element

def isInt : Element → Bool
  | int _ => true
  | str _ => false

def int? : Element → Option Int64
  | int v => some v
  | str _ => none

def str? : Element → Option String
  | int _ => none
  | str s => some s

/-- The element as it appears in messages and displays; strings stand unquoted. -/
def text : Element → String
  | int v => toString v.toInt
  | str s => s

/-- Integers in numeric order come before strings, which are in code point order. -/
def order : Element → Element → Ordering
  | int a, int b => compare a b
  | int _, str _ => .lt
  | str _, int _ => .gt
  | str a, str b => compare a b

end Element

abbrev Tuple := List Element

def Tuple.text (t : Tuple) : String :=
  ", ".intercalate (t.map Element.text)

end Milp
