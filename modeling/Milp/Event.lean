import Milp.Constraint

/-! The events of a compilation, in the order in which they happen. -/
namespace Milp

inductive Event where
  | started (model : String) (sets parameters vars constraints : Nat)
  | expanded (constraint : String) (instances skipped : Nat)
  | objectiveCompiled (objective : String) (sense : Sense) (terms : Nat)
  /-- An instance of a constraint depends on no decision variable. -/
  | hostInstance (constraint : String)
  | ended (model : String) (instances skipped : Nat)
deriving DecidableEq

end Milp
