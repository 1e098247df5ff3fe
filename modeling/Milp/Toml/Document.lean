import Milp.Config.Shape
import Milp.Json.Basic
import Milp.Toml.Value

/-! TOML documents: entries, and tables with headers. Arrays of tables, which no setting takes,
are refused. -/
namespace Milp.Toml

structure State where
  entries : Entries := []
  /-- The table that keys are added to. -/
  header : List String := []

def State.enter (s : State) (path : List String) : Option State := do
  let key ← path.getLast?
  return ⟨← changeAt (openTable key) path.dropLast s.entries, path⟩

def maxDepth : Nat := 79

def readItem (s : State) (cs : List Char) : Option (State × List Char) :=
  match cs with
  | '[' :: rest => do
    let (path, rest) ← scanKey rest
    let rest ← afterLine? (← after? ']' rest)
    return (← s.enter path, rest)
  | cs => do
    let (path, rest) ← scanKey cs
    let (v, rest) ← scanValue (cs.length + 1) maxDepth (dropBlanks (← after? '=' rest))
    let rest ← afterLine? rest
    return ({ s with entries := ← changeAt (addValue v path) s.header s.entries }, rest)

def readItems : Nat → State → List Char → Option State
  | 0, s, _ => some s
  | fuel + 1, s, cs =>
    match dropFiller false cs with
    | [] => some s
    | cs => do
      let (s, rest) ← readItem s cs
      readItems fuel s rest

/-- The entries of a document. A byte order mark may come first. -/
def read (text : String) : Option Entries :=
  let cs := match text.toList with
    | '\uFEFF' :: cs => cs
    | cs => cs
  (readItems (cs.length + 1) {} cs).map State.entries

/-- The name that a value chooses: a string, or a table with one entry, which is empty. -/
def chosen? : Toml → Option String
  | string s => some s
  | table _ [(name, v)] => if v.isEmpty then some name else none
  | _ => none

mutual

/-- A value as JSON, by what is expected in its place. An array gives the fields of a table in
their order, and may be longer. -/
def toJson : Config.Shape → Toml → Option Json
  | .choice, v => (chosen? v).map .string
  | .optionalText, string s => some (.string s)
  | .optionalNat, integer v => if 0 ≤ v then some (.int v.toInt) else none
  | .flag, boolean b => some (.bool b)
  | .table fields, array items => (itemsToJson fields items).map .array
  | .table fields, table _ entries =>
    if entries.all fun e => fields.any (·.1 == e.1) then (fieldsToJson fields entries).map .object
    else none
  | _, _ => none

def fieldsToJson : List (String × Config.Shape) → Entries → Option (List (String × Json))
  | [], _ => some []
  | (name, shape) :: fields, entries => do
    let rest ← fieldsToJson fields entries
    match entries.lookup name with
    | none => return rest
    | some v => return (name, ← toJson shape v) :: rest

def itemsToJson : List (String × Config.Shape) → List Toml → Option (List Json)
  | [], _ => some []
  | _, [] => some []
  | (_, shape) :: fields, v :: vs => do
    return (← toJson shape v) :: (← itemsToJson fields vs)

end

end Milp.Toml
