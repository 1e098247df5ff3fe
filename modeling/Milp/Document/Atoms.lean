import Milp.Document.Record
import Milp.Scalar

/-! The atoms of documents: strings, numbers, set elements, names out of a list, and the lists
and optional values of others. Numbers of either kind and set elements are told apart by their
value, so they are read only once their text is complete. -/
namespace Milp.Document

def readString (_ : Source) : Json → Except Fault String
  | .string s => .ok s
  | .torn => .error .notJson
  | _ => .error .badShape

def readBool (_ : Source) : Json → Except Fault Bool
  | .bool b => .ok b
  | .torn => .error .notJson
  | _ => .error .badShape

def floatOfInt (n : Int) : Float :=
  if n < 0 then -n.natAbs.toUInt64.toFloat else n.toNat.toUInt64.toFloat

/-- A double; integers are widened. -/
def readFloat (_ : Source) : Json → Except Fault Float
  | .float x => .ok x
  | .int n => .ok (floatOfInt n)
  | .torn => .error .notJson
  | _ => .error .badShape

def readNat (_ : Source) : Json → Except Fault Nat
  | .int n => if 0 ≤ n then .ok n.toNat else .error .badShape
  | .torn => .error .notJson
  | _ => .error .badShape

/-- A number of either kind. Integers beyond 64 bits are floats. -/
def readNumber (_ : Source) (j : Json) : Except Fault Number :=
  if !j.whole then .error .notJson
  else match j with
    | .int n =>
      match int64? n with
      | some v => .ok (.int v)
      | none => .ok (.float (floatOfInt n))
    | .float x => .ok (.float x)
    | _ => .error .badShape

def readElement (_ : Source) (j : Json) : Except Fault Element :=
  if !j.whole then .error .notJson
  else match j with
    | .int n =>
      match int64? n with
      | some v => .ok (.int v)
      | none => .error .badShape
    | .string s => .ok (.str s)
    | _ => .error .badShape

def readItems {α : Type} (read : Json → Except Fault α) (closed : Bool) :
    List Json → Except Fault (List α)
  | [] => if closed then .ok [] else .error .notJson
  | j :: js =>
    match read j with
    | .error fault => .error fault
    | .ok a => (readItems read closed js).map (a :: ·)

def readList {α : Type} (read : Source → Json → Except Fault α) (source : Source) :
    Json → Except Fault (List α)
  | .array items closed => readItems (read source) closed items
  | .torn => .error .notJson
  | _ => .error .badShape

def readOption {α : Type} (read : Source → Json → Except Fault α) (source : Source) :
    Json → Except Fault (Option α)
  | .null => .ok none
  | j => (read source j).map some

/-- A name out of a list, or an object with the name as its only field. -/
def readChoice {α : Type} (choices : List (String × α)) (source : Source) :
    Json → Except Fault α
  | .string s =>
    match choices.lookup s with
    | some a => .ok a
    | none => .error .badShape
  | .object [] _ => .error source.stray
  | .object ((name, payload) :: rest) closed =>
    match choices.lookup name, payload with
    | none, _ => .error .badShape
    | some _, .torn => .error .notJson
    | some a, payload =>
      let empty := match payload with
        | .null => true
        | .object [] true => source == .nested
        | _ => false
      if !empty then .error .badShape
      else if rest.isEmpty && closed then .ok a
      else .error source.stray
  | .torn => .error .notJson
  | _ => .error source.stray

def writeInt (v : Int64) : Json := .int v.toInt

def writeFloat (x : Float) : Json := if x.isFinite then .float x else .null

def writeNumber : Number → Json
  | .int v => writeInt v
  | .float x => writeFloat x

def writeElement : Element → Json
  | .int v => writeInt v
  | .str s => .string s

def writeList {α : Type} (write : α → Json) (xs : List α) : Json := .array (xs.map write)

def writeOption {α : Type} (write : α → Json) : Option α → Json
  | none => .null
  | some a => write a

end Milp.Document
