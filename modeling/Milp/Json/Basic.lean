/-! JSON values, as read from texts that may stop being JSON somewhere. Integers and floats are
different numbers, fields keep their order and may repeat, and a container that a text does not
close is marked. Everything before the place where a text goes wrong is kept, so that a reader
of documents meets the faults of a text in the order of the text. -/
namespace Milp

inductive Json where
  | null
  | bool (value : Bool)
  /-- A number without point and exponent, from `-2 ^ 63` to `2 ^ 64 - 1`. -/
  | int (value : Int)
  | float (value : Float)
  | string (text : String)
  /-- Elements, and whether the text closes the array. -/
  | array (items : List Json) (closed : Bool := true)
  /-- Fields, and whether the text closes the object. -/
  | object (fields : List (String × Json)) (closed : Bool := true)
  /-- The place where a text stops being JSON. -/
  | torn
deriving Inhabited

namespace Json

mutual

def whole : Json → Bool
  | array items closed => closed && wholeItems items
  | object fields closed => closed && wholeFields fields
  | torn => false
  | _ => true

def wholeItems : List Json → Bool
  | [] => true
  | j :: js => j.whole && wholeItems js

def wholeFields : List (String × Json) → Bool
  | [] => true
  | (_, j) :: fs => j.whole && wholeFields fs

end

mutual

def depth : Json → Nat
  | array items _ => depthItems items + 1
  | object fields _ => depthFields fields + 1
  | _ => 0

def depthItems : List Json → Nat
  | [] => 0
  | j :: js => max j.depth (depthItems js)

def depthFields : List (String × Json) → Nat
  | [] => 0
  | (_, j) :: fs => max j.depth (depthFields fs)

end

/-- Inserts a field into fields sorted by name, in the place of one of the same name. -/
def insertField (name : String) (value : Json) : List (String × Json) → List (String × Json)
  | [] => [(name, value)]
  | (n, v) :: fs =>
    if name < n then (name, value) :: (n, v) :: fs
    else if n < name then (n, v) :: insertField name value fs
    else (name, value) :: fs

mutual

/-- The value with the fields of each object sorted by name, of repeated ones the last. -/
def normal : Json → Json
  | array items closed => array (normalItems items) closed
  | object fields closed => object (normalFields [] fields) closed
  | j => j

def normalItems : List Json → List Json
  | [] => []
  | j :: js => j.normal :: normalItems js

def normalFields (sorted : List (String × Json)) : List (String × Json) → List (String × Json)
  | [] => sorted
  | (name, j) :: fs => normalFields (insertField name j.normal sorted) fs

end

end Json

end Milp
