import Milp.Error
import Milp.Json.Reader

/-! Reading of records. A record is an object whose fields have known names, or an array of the
same fields in their declared order. Fields are read each on its own and know where in the
document they stand; of several faults the first in the document is reported. -/
namespace Milp.Document

inductive Fault where
  /-- The text is not JSON. -/
  | notJson
  /-- The text is JSON of another shape. -/
  | badShape
  /-- The document has the right shape, and what it describes is refused. -/
  | rejected (cause : Error)
deriving DecidableEq

/-- Where a value comes from, which decides some faults. -/
inductive Source where
  /-- A JSON text that is read as it comes. -/
  | text
  /-- A JSON value. -/
  | value
  /-- A part of an expression, which is read as a value once its text was read. -/
  | nested
deriving DecidableEq

/-- The fault of a value that has no meaning in the place of a name or a further element. A text
is given up there before its shape is known. -/
def Source.stray : Source → Fault
  | .text => .notJson
  | _ => .badShape

/-- A part of a record, or a fault with its place among the fields. -/
inductive Placed (α : Type) where
  | ok (value : α)
  | fault (place : Nat) (fault : Fault)

namespace Placed

/-- Combines two parts of a record; of two faults the earlier counts. -/
def seq {α β : Type} : Placed (α → β) → Placed α → Placed β
  | ok f, ok a => ok (f a)
  | fault p e, ok _ => fault p e
  | ok _, fault q d => fault q d
  | fault p e, fault q d => if q < p then fault q d else fault p e

def map {α β : Type} (f : α → β) : Placed α → Placed β
  | ok a => ok (f a)
  | fault p e => fault p e

instance : Functor Placed := { map }
instance : Seq Placed := ⟨fun f x => f.seq (x ())⟩

def ofExcept {α : Type} (place : Nat) : Except Fault α → Placed α
  | .ok a => ok a
  | .error e => fault place e

end Placed

structure Fields where
  source : Source
  /-- For each declared field its value and place, if it is there. -/
  slots : List (Option (Nat × Json))
  /-- The first fault of the fields' arrangement. -/
  stray : Option (Nat × Fault)
  /-- The place after all fields. -/
  ending : Nat

namespace Fields

def slotOf (names : List (List String)) (name : String) : Option Nat :=
  names.findIdx? fun ns => ns.contains name

/-- Sorts the fields of an object into slots up to the first that is unknown or repeated. -/
def ofObject (source : Source) (names : List (List String)) (closed : Bool) :
    Nat → List (Option (Nat × Json)) → List (String × Json) → Fields
  | place, slots, [] =>
    ⟨source, slots, if closed then none else some (place, .notJson), place + 1⟩
  | place, slots, (name, value) :: rest =>
    match slotOf names name with
    | none => ⟨source, slots, some (place, .badShape), place + 1⟩
    | some i =>
      match slots[i]? with
      | some none =>
        ofObject source names closed (place + 1) (slots.set i (some (place, value))) rest
      | _ => ⟨source, slots, some (place, .badShape), place + 1⟩

def ofArray (source : Source) (count : Nat) (closed : Bool) (items : List Json) : Fields :=
  let slots := (List.range count).map fun i => items[i]?.map fun j => (i, j)
  let stray :=
    if count < items.length then some (count, source.stray)
    else if closed then none
    else some (items.length, .notJson)
  ⟨source, slots, stray, items.length + 1⟩

def ofJson (source : Source) (names : List (List String)) : Json → Except Fault Fields
  | .object fields closed =>
    .ok (ofObject source names closed 0 (names.map fun _ => none) fields)
  | .array items closed => .ok (ofArray source names.length closed items)
  | .torn => .error .notJson
  | _ => .error .badShape

def required {α : Type} (fs : Fields) (i : Nat) (read : Source → Json → Except Fault α) :
    Placed α :=
  match fs.slots[i]? with
  | some (some (place, j)) => Placed.ofExcept place (read fs.source j)
  | _ => .fault fs.ending .badShape

def optional {α : Type} (fs : Fields) (i : Nat) (default : α)
    (read : Source → Json → Except Fault α) : Placed α :=
  match fs.slots[i]? with
  | some (some (place, j)) => Placed.ofExcept place (read fs.source j)
  | _ => .ok default

/-- The record of fields that were read, unless their arrangement is at fault before them. -/
def finish {α : Type} (fs : Fields) (r : Placed α) : Except Fault α :=
  match r, fs.stray with
  | .ok a, none => .ok a
  | .ok _, some (_, fault) => .error fault
  | .fault _ fault, none => .error fault
  | .fault place fault, some (strayPlace, stray) =>
    .error (if strayPlace ≤ place then stray else fault)

end Fields

def readRecord {α : Type} (names : List (List String)) (make : Fields → Placed α)
    (source : Source) (j : Json) : Except Fault α :=
  match Fields.ofJson source names j with
  | .error fault => .error fault
  | .ok fs => fs.finish (make fs)

/-- Reads a text with a reader of JSON values. Nothing but space may follow the value. -/
def ofText {α : Type} (read : Source → Json → Except Fault α) (text : String) :
    Except Fault α :=
  let draft := Json.read text
  match read .text draft.value with
  | .error fault => .error fault
  | .ok a => if draft.trailing then .error .notJson else .ok a

/-- Reads a JSON value, in which the order of fields does not count. -/
def ofValue {α : Type} (read : Source → Json → Except Fault α) (j : Json) : Except Fault α :=
  read .value j.normal

end Milp.Document
