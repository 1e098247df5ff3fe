import Milp.Constraint

/-! Declarative models: a registry of declarations that refer to sets by name. A declaration is
checked when it is added, and a failed addition changes nothing; removing a set can leave others
pointing at it, which `Model.check` finds. -/
namespace Milp

mutual

/-- The sets that aggregations range over anywhere in an expression, in the order in which they
are checked. -/
def Expr.setNames : Expr → List String
  | .number _ => []
  | .string _ => []
  | .indexVar _ => []
  | .ref _ _ => []
  | .refAt _ _ positions => Expr.setNamesAll positions
  | .unary _ e => e.setNames
  | .binary _ l r => l.setNames ++ r.setNames
  | .aggregate a => Aggregation.setNames a

def Expr.setNamesAll : List Expr → List String
  | [] => []
  | e :: es => e.setNames ++ Expr.setNamesAll es

def Aggregation.setNames : Aggregation Expr → List String
  | ⟨_, body, ranges, condition⟩ =>
    ranges.map Range.set ++ Condition.setNames condition ++ body.setNames

def Condition.setNames : Option (Comparison Expr) → List String
  | none => []
  | some c => Comparison.setNames c

def Comparison.setNames : Comparison Expr → List String
  | ⟨_, l, _, r⟩ => l.setNames ++ r.setNames

end

def Constraint.setNames (c : Constraint) : List String :=
  (c.quantifiers.flatMap fun q => q.set :: Condition.setNames q.condition)
    ++ Comparison.setNames c.body

structure Model where
  name : String
  sets : Registry IndexSet := .empty
  parameters : Registry Parameter := .empty
  vars : Registry Variable := .empty
  constraints : Registry Constraint := .empty
  objective : Option Objective := none

namespace Model

def findSet (m : Model) (name : String) : Except Error IndexSet :=
  match m.sets.get? name with
  | some s => .ok s
  | none => .error (.unknownSet name)

def checkNames (m : Model) (names : List String) : Except Error Unit :=
  names.forM fun name => (m.findSet name).map fun _ => ()

def checkConstraint (m : Model) (c : Constraint) : Except Error Unit := do
  c.check
  m.checkNames c.setNames

def checkObjective (m : Model) (o : Objective) : Except Error Unit := do
  o.expr.check
  m.checkNames o.expr.setNames

/-- The answer to a change that is subject to a check, and the model after it. -/
def attempt (m : Model) (check : Except Error Unit) (changed : Model) :
    Except Error Unit × Model :=
  match check with
  | .error e => (.error e, m)
  | .ok _ => (.ok (), changed)

def addSet (m : Model) (s : IndexSet) : Except Error Unit × Model :=
  m.attempt s.check { m with sets := m.sets.insert s }

def addParameter (m : Model) (p : Parameter) : Except Error Unit × Model :=
  m.attempt (m.checkNames p.indices) { m with parameters := m.parameters.insert p }

def addVariable (m : Model) (v : Variable) : Except Error Unit × Model :=
  m.attempt (m.checkNames v.indices) { m with vars := m.vars.insert v }

def addConstraint (m : Model) (c : Constraint) : Except Error Unit × Model :=
  m.attempt (m.checkConstraint c) { m with constraints := m.constraints.insert c }

def setObjective (m : Model) (o : Objective) : Except Error Unit × Model :=
  m.attempt (m.checkObjective o) { m with objective := some o }

/-- Removes a set, whether or not it is referred to. -/
def removeSet (m : Model) (name : String) : Model := { m with sets := m.sets.erase name }

def removeParameter (m : Model) (name : String) : Model :=
  { m with parameters := m.parameters.erase name }

def removeVariable (m : Model) (name : String) : Model :=
  { m with vars := m.vars.erase name }

def removeConstraint (m : Model) (name : String) : Model :=
  { m with constraints := m.constraints.erase name }

def removeObjective (m : Model) : Model := { m with objective := none }

/-- Checks every declaration against the registry as it is now. -/
def check (m : Model) : Except Error Unit := do
  m.sets.items.forM IndexSet.check
  m.parameters.items.forM fun p => m.checkNames p.indices
  m.vars.items.forM fun v => m.checkNames v.indices
  m.constraints.items.forM m.checkConstraint
  m.objective.toList.forM m.checkObjective

end Model

end Milp
