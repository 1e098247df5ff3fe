import Milp.Model.Basic

/-! Models as plain lists of declarations, in the form in which documents exchange them. Building
a model from its lists adds them one by one, so later declarations replace earlier ones of the
same name and every addition is checked. -/
namespace Milp

structure ModelData where
  name : String
  sets : List IndexSet := []
  parameters : List Parameter := []
  vars : List Variable := []
  constraints : List Constraint := []
  objective : Option Objective := none

namespace Model

def toData (m : Model) : ModelData :=
  ⟨m.name, m.sets.items, m.parameters.items, m.vars.items, m.constraints.items, m.objective⟩

/-- The model after a change, or the failure of the change. -/
def accepted : Except Error Unit × Model → Except Error Model
  | (.ok _, m) => .ok m
  | (.error e, _) => .error e

/-- Adds declarations of one kind in order, up to the first that is refused. -/
def addAll {α : Type} (add : Model → α → Except Error Unit × Model) (m : Model) (xs : List α) :
    Except Error Model :=
  xs.foldlM (fun m x => accepted (add m x)) m

def ofData (d : ModelData) : Except Error Model := do
  let m ← addAll addSet { name := d.name } d.sets
  let m ← addAll addParameter m d.parameters
  let m ← addAll addVariable m d.vars
  let m ← addAll addConstraint m d.constraints
  addAll setObjective m d.objective.toList

end Model

def sameLists {α : Type} (same : α → α → Bool) : List α → List α → Bool
  | [], [] => true
  | a :: as, b :: bs => same a b && sameLists same as bs
  | _, _ => false

def ModelData.same (a b : ModelData) : Bool :=
  a.name == b.name && a.sets == b.sets && sameLists Parameter.same a.parameters b.parameters
    && sameLists Variable.same a.vars b.vars
    && sameLists Constraint.same a.constraints b.constraints
    && sameLists Objective.same a.objective.toList b.objective.toList

def Model.same (a b : Model) : Bool := a.toData.same b.toData

end Milp
