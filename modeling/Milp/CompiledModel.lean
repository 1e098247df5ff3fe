import Milp.Target

/-! Compiled models: a target that keeps everything it receives. A declared family has one
member for each tuple of the product of its index sets; constraint instances are told apart by
the name of the constraint and the index tuple, which is empty for an unquantified one. -/
namespace Milp

structure Member where
  family : String
  index : Tuple
deriving DecidableEq

def Member.text (m : Member) : String :=
  if m.index.isEmpty then m.family else m.family ++ "[" ++ m.index.text ++ "]"

structure Family where
  declaration : Variable
  axes : List (List Element)

namespace Family

instance : Named Family := ⟨fun f => f.declaration.name⟩

def members (f : Family) : List Member :=
  (tuples f.axes).map fun t => ⟨f.declaration.name, t⟩

def size (f : Family) : Nat := Odometer.count f.axes

def onAxes : List (List Element) → Tuple → Bool
  | [], [] => true
  | axis :: axes, x :: xs => axis.contains x && onAxes axes xs
  | _, _ => false

def member? (f : Family) (index : Tuple) : Option Member :=
  if onAxes f.axes index then some ⟨f.declaration.name, index⟩ else none

end Family

structure Row where
  constraint : String
  inst : Instance Member

namespace Row

/-- What tells rows apart. -/
def key (r : Row) : String × Tuple := (r.constraint, r.inst.index.getD [])

def label (r : Row) : String :=
  match r.inst.index with
  | some index => r.constraint ++ "[" ++ index.text ++ "]"
  | none => r.constraint

def text (r : Row) : String := r.label ++ ": " ++ r.inst.comparison.text Member.text

end Row

structure Goal where
  name : String
  value : Resolved Member
  sense : Sense

structure CompiledModel where
  sets : Registry IndexSet := .empty
  parameters : Registry Parameter := .empty
  families : Registry Family := .empty
  /-- The rows in the order of their arrival. -/
  rows : List Row := []
  goal : Option Goal := none

namespace CompiledModel

/-- The row of a constraint at a tuple; the empty tuple is that of an unquantified one. -/
def row? (m : CompiledModel) (constraint : String) (index : Tuple) : Option Row :=
  m.rows.find? fun r => r.key == (constraint, index)

def members (m : CompiledModel) (family : String) : List Member :=
  match m.families.get? family with
  | some f => f.members
  | none => []

def variableCount (m : CompiledModel) : Nat := m.families.items.foldl (fun n f => n + f.size) 0

def member? (m : CompiledModel) (family : String) (index : Tuple) : Option Member :=
  (m.families.get? family).bind fun f => f.member? index

def receive (m : CompiledModel) : Call Member → Except Error CompiledModel
  | .declareSet s => .ok { m with sets := m.sets.insert s }
  | .declareParameter p => .ok { m with parameters := m.parameters.insert p }
  | .declareFamily v sets =>
    if m.families.contains v.name then
      .error (.target ("variable family " ++ quoted v.name ++ " declared twice"))
    else
      .ok { m with families := m.families.insert ⟨v, sets.map IndexSet.elements⟩ }
  | .addInstance name inst =>
    let row : Row := ⟨name, inst⟩
    if (m.row? name row.key.2).isSome then
      .error (.target ("constraint " ++ quoted name ++ " already has an instance at ["
        ++ row.key.2.text ++ "]"))
    else .ok { m with rows := m.rows ++ [row] }
  | .setObjective name value sense => .ok { m with goal := some ⟨name, value, sense⟩ }

def ofFamilies (sets : Registry IndexSet) (families : List Variable) :
    Except Error CompiledModel :=
  families.foldlM (fun m v => do
    let axes ← v.indices.mapM fun name =>
      match sets.get? name with
      | some s => Except.ok s
      | none => .error (.unknownSet name)
    m.receive (.declareFamily v axes)) {}

def target : Target CompiledModel Member where
  receive c m :=
    match m.receive c with
    | .ok m' => (.ok (), m')
    | .error e => (.error e, m)
  handle m := m.member?

def familyText (f : Family) : String :=
  let v := f.declaration
  let indices := if v.indices.isEmpty then "" else "[" ++ ", ".intercalate v.indices ++ "]"
  "var " ++ v.name ++ indices ++ " in " ++ v.domain.name ++ " (" ++ toString f.size
    ++ " members)"

def lines (m : CompiledModel) : List String :=
  m.families.items.map familyText ++ m.rows.map Row.text
    ++ m.goal.toList.map fun g => g.sense.name ++ " " ++ g.name ++ ": " ++ g.value.text Member.text

def text (m : CompiledModel) : String := String.join (m.lines.map (· ++ "\n"))

end CompiledModel

end Milp
