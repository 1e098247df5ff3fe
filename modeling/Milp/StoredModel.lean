import Milp.CompiledModel

/-! Stored models: compiled models as a target keeps them, with tables beside the lists. A family
lists its members once and for all and finds them by a table of positions, and a row is refused by a
set of keys rather than by a search through the rows. `CompiledModel` describes the same target
without tables. -/
namespace Milp

/-- The positions of the tuples of a list; the last position of a repeated tuple comes first. -/
def positionsOf (ts : List Tuple) : List (Tuple × Nat) := ts.zipIdx.reverse

structure StoredFamily where
  declaration : Variable
  members : List Member
  /-- Where each tuple stands among the members. -/
  positions : List (Tuple × Nat)

namespace StoredFamily

instance : Named StoredFamily := ⟨fun f => f.declaration.name⟩

/-- Allocates a member per tuple of a product, in the order in which an odometer gives them. -/
def allocate (v : Variable) (axes : List (List Element)) : StoredFamily :=
  let members : List Member :=
    ((Odometer.start axes).take (Odometer.count axes)).map fun t => ⟨v.name, t⟩
  ⟨v, members, positionsOf (members.map Member.index)⟩

def size (f : StoredFamily) : Nat := f.members.length

def member? (f : StoredFamily) (index : Tuple) : Option Member :=
  (f.positions.lookup index).bind fun position => f.members[position]?

def text (f : StoredFamily) : String :=
  let v := f.declaration
  let indices := if v.indices.isEmpty then "" else "[" ++ ", ".intercalate v.indices ++ "]"
  "var " ++ v.name ++ indices ++ " in " ++ v.domain.name ++ " (" ++ toString f.size ++ " members)"

end StoredFamily

structure StoredModel where
  sets : Registry IndexSet := .empty
  parameters : Registry Parameter := .empty
  families : Registry StoredFamily := .empty
  /-- The rows in the order of their arrival. -/
  rows : List Row := []
  /-- The keys that are taken. -/
  keys : List (String × Tuple) := []
  goal : Option Goal := none

namespace StoredModel

def row? (m : StoredModel) (constraint : String) (index : Tuple) : Option Row :=
  m.rows.find? fun r => r.constraint == constraint &&
    match r.inst.index with
    | some own => own == index
    | none => index.isEmpty

def rowsOf (m : StoredModel) (constraint : String) : List Row :=
  m.rows.filter fun r => r.constraint == constraint

def members (m : StoredModel) (family : String) : List Member :=
  match m.families.get? family with
  | some f => f.members
  | none => []

def variableCount (m : StoredModel) : Nat := m.families.items.foldl (fun n f => n + f.size) 0

def member? (m : StoredModel) (family : String) (index : Tuple) : Option Member :=
  (m.families.get? family).bind fun f => f.member? index

/-- Takes a key, unless it is taken, and whether it could be taken. -/
def takeKey (m : StoredModel) (key : String × Tuple) : Bool × StoredModel :=
  if m.keys.contains key then (false, m) else (true, { m with keys := m.keys ++ [key] })

def receive (c : Call Member) (m : StoredModel) : Except Error Unit × StoredModel :=
  match c with
  | .declareSet s => (.ok (), { m with sets := m.sets.insert s })
  | .declareParameter p => (.ok (), { m with parameters := m.parameters.insert p })
  | .declareFamily v sets =>
    if m.families.contains v.name then
      (.error (.target ("variable family " ++ quoted v.name ++ " declared twice")), m)
    else
      let family := StoredFamily.allocate v (sets.map IndexSet.elements)
      (.ok (), { m with families := m.families.insert family })
  | .addInstance name inst =>
    let row : Row := ⟨name, inst⟩
    let (taken, m) := m.takeKey row.key
    if taken then (.ok (), { m with rows := m.rows ++ [row] })
    else
      (.error (.target ("constraint " ++ quoted name ++ " already has an instance at ["
        ++ row.key.2.text ++ "]")), m)
  | .setObjective name value sense => (.ok (), { m with goal := some ⟨name, value, sense⟩ })

def target : Target StoredModel Member where
  receive := receive
  handle m := m.member?

def lines (m : StoredModel) : List String :=
  m.families.items.map StoredFamily.text ++ m.rows.map Row.text
    ++ m.goal.toList.map fun g => g.sense.name ++ " " ++ g.name ++ ": " ++ g.value.text Member.text

def text (m : StoredModel) : String := String.join (m.lines.map (· ++ "\n"))

end StoredModel

end Milp
