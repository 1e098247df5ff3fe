import Milp.Model.Data
import Milp.Proofs.Declaration.IndexSet
import Milp.Proofs.Failure
import Milp.Proofs.Registry

/-! Edit histories of models. Whatever is added, replaced and removed, in any order and with
refused additions in between, names stay unique in each registry and every stored set passes its
check. -/
namespace Milp

inductive Edit where
  | addSet (set : IndexSet)
  | addParameter (parameter : Parameter)
  | addVariable (v : Variable)
  | addConstraint (constraint : Constraint)
  | setObjective (objective : Objective)
  | removeSet (name : String)
  | removeParameter (name : String)
  | removeVariable (name : String)
  | removeConstraint (name : String)
  | removeObjective

namespace Model

theorem findSet_eq_ok {m : Model} {name : String} {s : IndexSet} :
    m.findSet name = .ok s ↔ m.sets.get? name = some s := by
  rw [findSet]
  cases m.sets.get? name <;> simp

/-- The answer to an edit and the model after it. -/
def apply (m : Model) : Edit → Except Error Unit × Model
  | .addSet s => m.addSet s
  | .addParameter p => m.addParameter p
  | .addVariable v => m.addVariable v
  | .addConstraint c => m.addConstraint c
  | .setObjective o => m.setObjective o
  | .removeSet name => (.ok (), m.removeSet name)
  | .removeParameter name => (.ok (), m.removeParameter name)
  | .removeVariable name => (.ok (), m.removeVariable name)
  | .removeConstraint name => (.ok (), m.removeConstraint name)
  | .removeObjective => (.ok (), m.removeObjective)

def edit (m : Model) (e : Edit) : Model := (m.apply e).2

/-- What holds of a model, and of the changed one when its check passes, holds after the attempt. -/
theorem attempt_keeps {p : Model → Prop} {m changed : Model} {check : Except Error Unit}
    (hm : p m) (h : check = .ok () → p changed) : p (m.attempt check changed).2 := by
  cases check with
  | error e => exact hm
  | ok _ => exact h rfl

theorem attempt_of_error {m changed : Model} {check : Except Error Unit} {e : Error}
    (h : (m.attempt check changed).1 = .error e) : (m.attempt check changed).2 = m := by
  cases check with
  | error _ => rfl
  | ok _ => cases h

/-- A refused edit leaves the model as it is. -/
theorem edit_of_refused {m : Model} {e : Edit} {err : Error} (h : (m.apply e).1 = .error err) :
    m.edit e = m := by
  cases e with
  | addSet s => exact attempt_of_error h
  | addParameter p => exact attempt_of_error h
  | addVariable v => exact attempt_of_error h
  | addConstraint c => exact attempt_of_error h
  | setObjective o => exact attempt_of_error h
  -- Removals are never refused.
  | removeSet name => cases h
  | removeParameter name => cases h
  | removeVariable name => cases h
  | removeConstraint name => cases h
  | removeObjective => cases h

/-- Models that come from an empty one by a history of edits. Those that are built from lists of
declarations are among them, see `reachable_ofData`. -/
inductive Reachable : Model → Prop
  | new (name : String) : Reachable { name }
  | edit {m : Model} (e : Edit) : Reachable m → Reachable (m.edit e)

theorem Reachable.edits {m : Model} (hm : m.Reachable) (es : List Edit) :
    (es.foldl Model.edit m).Reachable := by
  induction es generalizing m with
  | nil => exact hm
  | cons e es ih => exact ih (hm.edit e)

theorem accepted_eq_ok {answer : Except Error Unit × Model} {m : Model}
    (h : accepted answer = .ok m) : answer.2 = m := by
  obtain ⟨_ | _, _⟩ := answer
  · cases h
  · cases h
    rfl

private theorem Reachable.addAll {α : Type} (toEdit : α → Edit) {xs : List α} {m m' : Model}
    (hm : m.Reachable) (h : Model.addAll (fun m x => m.apply (toEdit x)) m xs = .ok m') :
    m'.Reachable := by
  induction xs generalizing m with
  | nil =>
    cases h
    exact hm
  | cons x xs ih =>
    rw [Model.addAll, List.foldlM_cons] at h
    obtain ⟨next, hnext, hrest⟩ := bind_eq_ok.mp h
    have hedit : (m.edit (toEdit x)).Reachable := hm.edit (toEdit x)
    rw [Model.edit, accepted_eq_ok hnext] at hedit
    exact ih hedit hrest

/-- A model built from lists of declarations has a history of additions. -/
theorem reachable_ofData {d : ModelData} {m : Model} (h : ofData d = .ok m) : m.Reachable := by
  obtain ⟨m₁, h₁, h⟩ := bind_eq_ok.mp h
  obtain ⟨m₂, h₂, h⟩ := bind_eq_ok.mp h
  obtain ⟨m₃, h₃, h⟩ := bind_eq_ok.mp h
  obtain ⟨m₄, h₄, h₅⟩ := bind_eq_ok.mp h
  have r₁ := (Reachable.new d.name).addAll .addSet h₁
  have r₂ := r₁.addAll .addParameter h₂
  have r₃ := r₂.addAll .addVariable h₃
  have r₄ := r₃.addAll .addConstraint h₄
  exact r₄.addAll .setObjective h₅

/-- Unique names in each registry, and sets that pass their check. -/
structure WellFormed (m : Model) : Prop where
  sets : m.sets.Unique
  parameters : m.parameters.Unique
  vars : m.vars.Unique
  constraints : m.constraints.Unique
  elements : ∀ s ∈ m.sets.items, s.check = .ok ()

theorem WellFormed.new (name : String) : WellFormed { name } :=
  ⟨Registry.unique_empty, Registry.unique_empty, Registry.unique_empty, Registry.unique_empty,
    nofun⟩

theorem WellFormed.edit {m : Model} (hm : m.WellFormed) (e : Edit) : (m.edit e).WellFormed := by
  cases e with
  | addSet s =>
    refine attempt_keeps hm fun hs => ?_
    refine { hm with sets := hm.sets.insert s, elements := fun t ht => ?_ }
    rcases Registry.mem_insert ht with rfl | ht
    · exact hs
    · exact hm.elements t ht
  | addParameter p =>
    exact attempt_keeps hm fun _ => { hm with parameters := hm.parameters.insert p }
  | addVariable v => exact attempt_keeps hm fun _ => { hm with vars := hm.vars.insert v }
  | addConstraint c =>
    exact attempt_keeps hm fun _ => { hm with constraints := hm.constraints.insert c }
  | setObjective o => exact attempt_keeps hm fun _ => { hm with }
  | removeSet name =>
    exact { hm with
      sets := hm.sets.erase name
      elements := fun t ht => hm.elements t (Registry.mem_of_mem_erase ht) }
  | removeParameter name => exact { hm with parameters := hm.parameters.erase name }
  | removeVariable name => exact { hm with vars := hm.vars.erase name }
  | removeConstraint name => exact { hm with constraints := hm.constraints.erase name }
  | removeObjective => exact { hm with }

theorem Reachable.wellFormed {m : Model} (h : m.Reachable) : m.WellFormed := by
  induction h with
  | new name => exact .new name
  | edit e _ ih => exact ih.edit e

end Model

end Milp
