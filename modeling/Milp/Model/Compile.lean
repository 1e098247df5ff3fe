import Milp.Event
import Milp.Model.Basic
import Milp.Target

/-! Compilation of a model into a target. Declarations are delivered first, so that the target
can hand out handles. Then every constraint and the objective are evaluated in full, and only
after that are the instances and the objective delivered: a failed evaluation leaves a target
with declarations and nothing else. -/
namespace Milp

structure ConstraintReport where
  name : String
  instances : Nat
  skipped : Nat
deriving DecidableEq, Repr

structure Report where
  constraints : List ConstraintReport
  /-- The number of declared variable families. -/
  vars : Nat
  objectiveTerms : Nat
deriving DecidableEq, Repr

namespace Report

def instances (r : Report) : Nat := r.constraints.foldl (fun n c => n + c.instances) 0

def skipped (r : Report) : Nat := r.constraints.foldl (fun n c => n + c.skipped) 0

def find? (r : Report) (name : String) : Option ConstraintReport :=
  r.constraints.find? fun c => c.name == name

end Report

structure Outcome (σ : Type) where
  result : Except Error Report
  state : σ
  events : List Event

/-- The results of a function up to its first failure, and that failure. -/
def collect {α β ε : Type} (f : α → Except ε β) : List α → List β × Option ε
  | [] => ([], none)
  | a :: as =>
    match f a with
    | .error e => ([], some e)
    | .ok b =>
      let (bs, failure) := collect f as
      (b :: bs, failure)

structure Planned (V : Type) where
  name : String
  expansion : Expansion V

namespace Planned

variable {V : Type}

def calls (p : Planned V) : List (Call V) := p.expansion.instances.map (.addInstance p.name)

def report (p : Planned V) : ConstraintReport :=
  ⟨p.name, p.expansion.instances.length, p.expansion.skipped⟩

def event (p : Planned V) : Event :=
  .expanded p.name p.expansion.instances.length p.expansion.skipped

end Planned

namespace Model

variable {σ V : Type}

/-- The objective of a model that is ready for compilation: it has one, and in checked mode all
its declarations are in order. -/
def ready (m : Model) (mode : CheckMode) : Except Error Objective :=
  match m.objective with
  | none => .error (.missingObjective m.name)
  | some o =>
    match mode with
    | .fast => .ok o
    | .checked => m.check.map fun _ => o

def familyCall (m : Model) (v : Variable) : Except Error (Call V) :=
  (v.indices.mapM m.findSet).map (.declareFamily v)

/-- The calls that declare sets, parameters and variables, up to a variable over an unknown set,
and the failure that this is. -/
def declarations (m : Model) : List (Call V) × Option Error :=
  let (families, failure) := collect m.familyCall m.vars.items
  (m.sets.items.map .declareSet ++ m.parameters.items.map .declareParameter ++ families, failure)

/-- The setting of a model's expressions, with handles from a target in some state. -/
def setting (m : Model) (t : Target σ V) (limits : Limits) (s : σ) : Setting V :=
  ⟨m.sets, m.parameters, m.vars, t.handle s, limits⟩

def expansions (m : Model) (st : Setting V) : List (Planned V) × Option Error :=
  collect (fun c => (c.expand st).map (Planned.mk c.name)) m.constraints.items

def warning? : Call V → Option Event
  | .addInstance name inst => if inst.comparison.isHost then some (.hostInstance name) else none
  | _ => none

def started (m : Model) : Event :=
  .started m.name m.sets.size m.parameters.size m.vars.size m.constraints.size

def report (m : Model) (planned : List (Planned V)) (value : Resolved V) : Report :=
  ⟨planned.map Planned.report, m.vars.size, value.termCount⟩

def emissions (planned : List (Planned V)) (o : Objective) (value : Resolved V) :
    List (Call V) :=
  planned.flatMap Planned.calls ++ [.setObjective o.name value o.sense]

def emit (m : Model) (t : Target σ V) (mode : CheckMode) (o : Objective)
    (planned : List (Planned V)) (value : Resolved V) (events : List Event) (s : σ) :
    Outcome σ :=
  let delivered := t.deliver (emissions planned o value) s
  let warnings := match mode with
    | .fast => []
    | .checked => delivered.made.filterMap warning?
  let report := m.report planned value
  match delivered.refusal with
  | some e => ⟨.error e, delivered.state, events ++ warnings⟩
  | none =>
    ⟨.ok report, delivered.state,
      events ++ warnings ++ [.ended m.name report.instances report.skipped]⟩

def compile (m : Model) (t : Target σ V) (config : Config) (s : σ) : Outcome σ :=
  match m.ready config.mode with
  | .error e => ⟨.error e, s, []⟩
  | .ok o =>
    let (calls, unknown) := m.declarations
    let declared := t.deliver calls s
    match declared.refusal.or unknown with
    | some e => ⟨.error e, declared.state, [m.started]⟩
    | none =>
      let st := m.setting t config.limits declared.state
      let (planned, failure) := m.expansions st
      let events := m.started :: planned.map Planned.event
      match failure with
      | some e => ⟨.error e, declared.state, events⟩
      | none =>
        match o.expr.eval st Scope.root with
        | .error e => ⟨.error e, declared.state, events⟩
        | .ok value =>
          let events := events ++ [.objectiveCompiled o.name o.sense value.termCount]
          m.emit t config.mode o planned value events declared.state

end Model

end Milp
