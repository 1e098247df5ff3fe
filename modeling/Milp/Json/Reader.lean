import Milp.Json.Token

/-! Reading of JSON texts. The reader walks the tokens with a stack of open containers and never
fails: where a text goes wrong, every container that is open is left unclosed. -/
namespace Milp.Json

/-- A container that is open, with what it holds so far, last first. -/
inductive Frame where
  | array (items : List Json)
  /-- An object whose field `key` is being read. -/
  | object (fields : List (String × Json)) (key : String)

inductive Want where
  | value
  /-- The first element of an array, or its end. -/
  | firstItem
  /-- The first key of an object, or its end. -/
  | firstKey
  /-- A key, given the fields before it. -/
  | key (fields : List (String × Json))
  /-- The colon after a key. -/
  | colon
  /-- A comma, or the end of the innermost container. -/
  | more

def maxDepth : Nat := 127

def Frame.add (j : Json) : Frame → Frame
  | .array items => .array (j :: items)
  | .object fields key => .object ((key, j) :: fields) key

def Frame.build (closed : Bool) : Frame → Json
  | .array items => .array items.reverse closed
  | .object fields _ => .object fields.reverse closed

/-- The value that open containers make when a text breaks off inside them. -/
def tear (j : Json) : List Frame → Json
  | [] => j
  | f :: fs => tear ((f.add j).build false) fs

def breakOff (want : Want) (stack : List Frame) : Json :=
  match want, stack with
  | .firstItem, stack => tear (.array [] false) stack
  | .firstKey, stack => tear (.object [] false) stack
  | .key fields, stack => tear (.object fields.reverse false) stack
  | .more, f :: fs => tear (f.build false) fs
  | _, stack => tear .torn stack

/-- A text as read: its value, and whether anything but space follows it. -/
structure Draft where
  value : Json
  trailing : Bool

def build : List Token → Want → List Frame → Draft
  | [], want, stack => ⟨breakOff want stack, false⟩
  | t :: ts, want, stack =>
    let finish (j : Json) (stack : List Frame) : Draft :=
      match stack with
      | [] => ⟨j, !ts.isEmpty⟩
      | f :: fs => build ts .more (f.add j :: fs)
    let openable (empty : Json) (want : Want) (stack : List Frame) : Draft :=
      if stack.length < maxDepth then build ts want stack else ⟨tear empty stack, false⟩
    match want, t, stack with
    | .value, .literal j, stack => finish j stack
    | .value, .openArray, stack => openable (.array [] false) .firstItem stack
    | .value, .openObject, stack => openable (.object [] false) .firstKey stack
    | .firstItem, .closeArray, stack => finish (.array []) stack
    | .firstItem, .literal j, stack => build ts .more (.array [j] :: stack)
    | .firstItem, .openArray, stack =>
      openable (.array [] false) .firstItem (.array [] :: stack)
    | .firstItem, .openObject, stack =>
      openable (.object [] false) .firstKey (.array [] :: stack)
    | .firstKey, .closeObject, stack => finish (.object []) stack
    | .firstKey, .literal (.string key), stack => build ts .colon (.object [] key :: stack)
    | .key fields, .literal (.string key), stack => build ts .colon (.object fields key :: stack)
    | .colon, .colon, stack => build ts .value stack
    | .more, .comma, .array items :: fs => build ts .value (.array items :: fs)
    | .more, .comma, .object fields _ :: fs => build ts (.key fields) fs
    | .more, .closeArray, .array items :: fs => finish (.array items.reverse) fs
    | .more, .closeObject, .object fields _ :: fs => finish (.object fields.reverse) fs
    | want, _, stack => ⟨breakOff want stack, false⟩

def read (text : String) : Draft := build (tokens text) .value []

end Milp.Json
