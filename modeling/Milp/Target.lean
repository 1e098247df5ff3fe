import Milp.Expansion

/-! Targets of compilations. A target is a state machine that receives declarations, constraint
instances and an objective one call at a time, may refuse any of them, and hands out handles for
the decision variables that were declared to it. -/
namespace Milp

inductive Call (V : Type) where
  | declareSet (set : IndexSet)
  | declareParameter (parameter : Parameter)
  /-- A variable with its index sets in index order. -/
  | declareFamily (family : Variable) (sets : List IndexSet)
  | addInstance (constraint : String) (inst : Instance V)
  | setObjective (name : String) (value : Resolved V) (sense : Sense)

/-- A receiver of calls with states of type `σ` and handles of type `V`. -/
structure Target (σ V : Type) where
  /-- The answer to a call and the state after it, which may have changed on a refusal too. -/
  receive : Call V → σ → Except Error Unit × σ
  /-- The handle of a family member at a tuple. -/
  handle : σ → String → Tuple → Option V

structure Delivery (σ V : Type) where
  /-- The calls that were made, a refused one being the last. -/
  made : List (Call V)
  state : σ
  refusal : Option Error

namespace Target

variable {σ V : Type}

/-- Makes calls in order up to the first refusal. -/
def deliver (t : Target σ V) : List (Call V) → σ → Delivery σ V
  | [], s => ⟨[], s, none⟩
  | c :: cs, s =>
    match t.receive c s with
    | (.error e, s) => ⟨[c], s, some e⟩
    | (.ok (), s) =>
      let d := t.deliver cs s
      { d with made := c :: d.made }

/-- A target that also keeps the calls it received, the last one first. -/
def recording (t : Target σ V) : Target (σ × List (Call V)) V where
  receive c s :=
    let (answer, inner) := t.receive c s.1
    (answer, inner, c :: s.2)
  handle s := t.handle s.1

end Target

end Milp
