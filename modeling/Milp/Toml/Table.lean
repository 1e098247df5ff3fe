import Milp.Element

/-! TOML values, and the tables of a document while they grow. What may be added to a table
depends on how it came to be; nothing is defined twice. -/
namespace Milp

inductive Toml.Origin where
  /-- Written as a value, with all its entries. -/
  | closed
  /-- By a header of its own. -/
  | header
  /-- On the way to a header of a table inside it. -/
  | implied
  /-- By a dotted key. -/
  | dotted
deriving DecidableEq

inductive Toml where
  | string (text : String)
  | integer (value : Int64)
  | float (value : Float)
  | boolean (value : Bool)
  /-- A date, a time or both, of which nothing is kept. -/
  | moment
  | array (items : List Toml)
  | table (origin : Toml.Origin) (entries : List (String × Toml))

namespace Toml

abbrev Entries := List (String × Toml)

def isEmpty : Toml → Bool
  | array items => items.isEmpty
  | table _ entries => entries.isEmpty
  | _ => false

def put (key : String) (v : Toml) : Entries → Entries
  | [] => [(key, v)]
  | e :: es => if e.1 = key then (key, v) :: es else e :: put key v es

/-- Adds a value under a dotted key. The last key is new, and so is every table on the way unless
a dotted key made it. A table that a header implied can be passed through, but gets no value. -/
def addValue (v : Toml) : List String → Entries → Option Entries
  | [], _ => none
  | [key], entries =>
    match entries.lookup key with
    | none => some (put key v entries)
    | some _ => none
  | key :: path, entries =>
    match entries.lookup key with
    | none => (addValue v path []).map fun es => put key (table .dotted es) entries
    | some (table .dotted inner) =>
      (addValue v path inner).map fun es => put key (table .dotted es) entries
    | some (table .implied inner) =>
      if path.length = 1 then none
      else (addValue v path inner).map fun es => put key (table .implied es) entries
    | some _ => none

/-- Changes the entries of the table on the path of a header. Tables that are missing on the way
are implied. -/
def changeAt (change : Entries → Option Entries) : List String → Entries → Option Entries
  | [], entries => change entries
  | key :: path, entries =>
    match entries.lookup key with
    | none => (changeAt change path []).map fun es => put key (table .implied es) entries
    | some (table .closed _) => none
    | some (table origin inner) =>
      (changeAt change path inner).map fun es => put key (table origin es) entries
    | some _ => none

/-- Opens a table, which becomes the last entry. It must not have been defined before; a header
may have implied it. -/
def openTable (key : String) (entries : Entries) : Option Entries :=
  match entries.lookup key with
  | none => some (entries ++ [(key, table .header [])])
  | some (table .implied inner) =>
    some (entries.filter (·.1 != key) ++ [(key, table .header inner)])
  | some _ => none

end Toml

end Milp
