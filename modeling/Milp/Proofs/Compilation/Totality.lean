import Milp.Examples.Planning
import Milp.Proofs.Compilation.Fresh
import Milp.Proofs.Compilation.Report
import Milp.Proofs.Storage.Representation

/-! Compilation into an empty target. Only the model can make it fail: the target refuses nothing,
because families have distinct names and rows have distinct keys. When it succeeds, the target holds
the declarations, the planned rows in order and the goal, and the report agrees with it. -/
namespace Milp

/-- The size of a family is the product of the sizes of its axes. -/
theorem Family.size_eq_prod (f : Family) : f.size = (f.axes.map List.length).prod := by
  rw [size, Odometer.count_eq_length, length_tuples]

theorem CompiledModel.variableCount_eq_sum (s : CompiledModel) :
    s.variableCount = (s.families.items.map Family.size).sum := by
  rw [variableCount, List.sum_eq_foldl, List.foldl_map]

namespace Model

def freshSetting (m : Model) (config : Config) : Setting Member :=
  m.setting StoredModel.target config.limits m.declared.stored

theorem freshSetting_eq (m : Model) (config : Config) :
    m.freshSetting config = m.setting CompiledModel.target config.limits m.declared :=
  CompiledModel.stored_refines.setting m config.limits m.declared

/-- What a report and a target are after planned constraints and a goal were delivered to an empty
target. -/
structure Fulfils (m : Model) (qs : List (Planned Member)) (g : Goal) (r : Report)
    (s : StoredModel) : Prop where
  state : s = { m.declared.stored with
    rows := qs.flatMap Planned.rows
    keys := (qs.flatMap Planned.rows).map Row.key
    goal := some g }
  report : r = m.report qs g.value
  /-- A lookup gives the instance at a key, and nothing at any other key. -/
  row? : ∀ name index row, s.row? name index = some row ↔
    ∃ q ∈ qs, ∃ i ∈ q.expansion.instances,
      q.name = name ∧ i.index.getD [] = index ∧ row = ⟨name, i⟩
  rowsOf : ∀ c ∈ r.constraints, c.instances = (s.rowsOf c.name).length
  instances : r.instances = s.rows.length
  variableCount : s.variableCount =
    (m.vars.items.map fun v => (v.indices.map fun name => (m.elementsOf name).length).prod).sum

variable {m : Model} {config : Config}

private theorem ready_failsIntrinsically (m : Model) (mode : CheckMode) :
    FailsIntrinsically (m.ready mode) := by
  rw [ready.eq_def]
  split
  · exact .error trivial
  · split
    · exact .ok _
    · exact m.check_failsIntrinsically.map _

private theorem familyCall_failsIntrinsically {V : Type} (m : Model) (v : Variable) :
    FailsIntrinsically (m.familyCall (V := V) v) :=
  FailsOnly.map (FailsOnly.mapM fun name _ => m.findSet_failsIntrinsically name) _

/-- The declarations to an empty target fail only over a variable without its sets. -/
theorem WellFormed.declareFailure_fresh (hm : m.WellFormed) :
    (m.declareFailure CompiledModel.target {} = none ↔ ∀ v ∈ m.vars.items, m.Grounded v) ∧
      ∀ e, m.declareFailure CompiledModel.target {} = some e → e.Intrinsic := by
  have hfailure : m.declareFailure CompiledModel.target {} =
      (collect (m.familyCall (V := Member)) m.vars.items).2 := by
    rw [declareFailure, hm.declare_fresh.1]
    rfl
  have hmapM := mapM_eq_collect (m.familyCall (V := Member)) m.vars.items
  rw [hfailure]
  constructor
  · simp only [← familyCall_isOk (V := Member), ← mapM_isOk, hmapM]
    cases (collect (m.familyCall (V := Member)) m.vars.items).2 <;> simp
  · intro e he
    rw [he] at hmapM
    exact FailsOnly.mapM (fun v _ => m.familyCall_failsIntrinsically v) e hmapM

/-- What a plan for an empty target is made of. -/
theorem WellFormed.plan_fresh_eq_ok (hm : m.WellFormed) {p : Plan CompiledModel Member} :
    m.plan CompiledModel.target config {} = .ok p ↔
      (m.objective = some p.objective ∧ (config.mode = .checked → m.check = .ok ())) ∧
      (∀ v ∈ m.vars.items, m.Grounded v) ∧ p.declared = m.declared ∧
      List.Forall₂ (fun c q => q.Expands (m.freshSetting config) c)
        m.constraints.items p.constraints ∧
      p.objective.expr.eval (m.freshSetting config) .root = .ok p.value := by
  obtain ⟨hgrounded, _⟩ := hm.declareFailure_fresh
  have hstate (h : m.declareFailure CompiledModel.target {} = none) :
      (m.declare CompiledModel.target {}).state = m.declared := by
    refine hm.declare_fresh.2 ?_
    rw [declareFailure, hm.declare_fresh.1] at h
    exact h
  rw [plan_eq_ok, ready_eq_ok, ← hgrounded, freshSetting_eq]
  constructor
  · rintro ⟨hready, hnone, hdeclared, hplanned, hvalue⟩
    rw [hstate hnone] at hdeclared
    rw [hdeclared] at hplanned hvalue
    exact ⟨hready, hnone, hdeclared, hplanned, hvalue⟩
  · rintro ⟨hready, hnone, hdeclared, hplanned, hvalue⟩
    refine ⟨hready, hnone, hdeclared.trans (hstate hnone).symm, ?_⟩
    rw [hdeclared]
    exact ⟨hplanned, hvalue⟩

private theorem exists_expands {V : Type} {st : Setting V} {c : Constraint} :
    (∃ q : Planned V, q.Expands st c) ↔ ∃ e, c.expand st = .ok e := by
  constructor
  · rintro ⟨q, _, hq⟩
    exact ⟨q.expansion, hq⟩
  · rintro ⟨e, he⟩
    exact ⟨⟨c.name, e⟩, rfl, he⟩

/-- A plan for an empty target exists exactly when the model is ready, its variables have their sets
and its constraints and objective can be evaluated. -/
theorem WellFormed.plan_fresh_isOk (hm : m.WellFormed) :
    (∃ p, m.plan CompiledModel.target config {} = .ok p) ↔
      (config.mode = .checked → m.check = .ok ()) ∧ (∀ v ∈ m.vars.items, m.Grounded v) ∧
      (∀ c ∈ m.constraints.items, ∃ e, c.expand (m.freshSetting config) = .ok e) ∧
      ∃ o, m.objective = some o ∧
        ∃ value, o.expr.eval (m.freshSetting config) .root = .ok value := by
  simp only [← exists_expands, ← exists_forall₂]
  constructor
  · rintro ⟨p, hp⟩
    obtain ⟨⟨hobjective, hcheck⟩, hgrounded, _, hplanned, hvalue⟩ := hm.plan_fresh_eq_ok.mp hp
    exact ⟨hcheck, hgrounded, ⟨p.constraints, hplanned⟩, p.objective, hobjective, p.value, hvalue⟩
  · rintro ⟨hcheck, hgrounded, ⟨qs, hqs⟩, o, hobjective, value, hvalue⟩
    exact ⟨⟨o, m.declared, qs, value⟩,
      hm.plan_fresh_eq_ok.mpr ⟨⟨hobjective, hcheck⟩, hgrounded, rfl, hqs, hvalue⟩⟩

theorem WellFormed.plan_fresh_failsIntrinsically (hm : m.WellFormed) :
    FailsIntrinsically (m.plan CompiledModel.target config {}) := by
  rw [plan]
  refine (m.ready_failsIntrinsically config.mode).bind fun o => ?_
  split
  · rename_i e he
    exact .error (hm.declareFailure_fresh.2 e he)
  · refine FailsOnly.bind (FailsOnly.mapM fun c _ => ?_) fun qs => ?_
    · exact (c.expand_failsIntrinsically _).map _
    · exact (o.expr.eval_failsIntrinsically _ .root).bind fun value => .ok _

/-- A plan for an empty target is delivered in full. -/
theorem WellFormed.fulfils_of_plan (hm : m.WellFormed) {p : Plan CompiledModel Member}
    (h : m.plan CompiledModel.target config {} = .ok p) :
    (m.compile CompiledModel.target config {}).result = .ok (m.report p.constraints p.value) ∧
      m.Fulfils p.constraints p.goal (m.report p.constraints p.value)
        (m.compile CompiledModel.target config {}).state.stored := by
  obtain ⟨hresult, hstate⟩ := compile_of_free hm h fun r _ => rfl
  obtain ⟨_, _, hdeclared, hplanned, _⟩ := hm.plan_fresh_eq_ok.mp h
  have hnames : (p.constraints.map Planned.name).Nodup := by
    rw [map_name_eq hplanned]
    exact hm.constraints
  refine ⟨hresult, ?_⟩
  rw [hstate, hdeclared]
  refine ⟨rfl, rfl, fun name index row => ?_, fun c hc => ?_, ?_, ?_⟩
  · rw [CompiledModel.row?_stored, CompiledModel.row?_eq_some (hm.nodup_keys h)]
    simp only [List.nil_append, Plan.rows, Planned.mem_rows]
    constructor
    · rintro ⟨⟨q, hq, i, hi, rfl⟩, hkey⟩
      obtain ⟨hname, hindex⟩ := Prod.mk.inj hkey
      exact ⟨q, hq, i, hi, hname, hindex, by rw [← hname]⟩
    · rintro ⟨q, hq, i, hi, rfl, rfl, rfl⟩
      exact ⟨⟨q, hq, i, hi, rfl⟩, rfl⟩
  · obtain ⟨q, hq, rfl⟩ := List.mem_map.mp hc
    have hrows := filter_flatMap_rows hnames hq
    rw [StoredModel.rowsOf, CompiledModel.rows_stored, List.nil_append]
    exact (congrArg List.length hrows).symm ▸ (List.length_map _).symm
  · rw [instances_report]
    rfl
  · rw [CompiledModel.variableCount_stored, CompiledModel.variableCount_eq_sum]
    simp only [declared, List.map_map]
    congr 1
    refine List.map_congr_left fun v _ => ?_
    rw [Function.comp_apply, Family.size_eq_prod, family, List.map_map]
    rfl

/-- Compilation into an empty target never fails by the target: it succeeds exactly when there is an
objective, the check that the mode asks for passes, the index sets of all variables exist, and every
constraint and the objective can be evaluated. A success fulfils the expansions in model order. -/
theorem compile_fresh (hm : m.Reachable) (config : Config) :
    (∀ message, (m.compile StoredModel.target config {}).result ≠ .error (.target message)) ∧
    ((∃ r, (m.compile StoredModel.target config {}).result = .ok r) ↔
      (config.mode = .checked → m.check = .ok ()) ∧ (∀ v ∈ m.vars.items, m.Grounded v) ∧
      (∀ c ∈ m.constraints.items, ∃ e, c.expand (m.freshSetting config) = .ok e) ∧
      ∃ o, m.objective = some o ∧
        ∃ value, o.expr.eval (m.freshSetting config) .root = .ok value) ∧
    ∀ r, (m.compile StoredModel.target config {}).result = .ok r →
      ∃ o value qs, m.objective = some o ∧
        o.expr.eval (m.freshSetting config) .root = .ok value ∧
        List.Forall₂ (fun c q => q.Expands (m.freshSetting config) c) m.constraints.items qs ∧
        m.Fulfils qs ⟨o.name, value, o.sense⟩ r
          (m.compile StoredModel.target config {}).state := by
  have hwf := hm.wellFormed
  rw [← hwf.plan_fresh_isOk, CompiledModel.compile_stored_empty]
  cases hplan : m.plan CompiledModel.target config {} with
  | error e =>
    obtain ⟨hresult, _⟩ := compile_of_plan_error hplan
    rw [hresult]
    refine ⟨fun message he => ?_, ?_, fun r hr => ?_⟩
    · have hintrinsic := hwf.plan_fresh_failsIntrinsically e hplan
      cases he
      exact hintrinsic
    · exact iff_of_false (fun ⟨_, h⟩ => nomatch h) (fun ⟨_, h⟩ => nomatch h)
    · cases hr
  | ok p =>
    obtain ⟨hresult, hfulfils⟩ := hwf.fulfils_of_plan hplan
    obtain ⟨⟨hobjective, _⟩, _, _, hplanned, hvalue⟩ := hwf.plan_fresh_eq_ok.mp hplan
    rw [hresult]
    refine ⟨nofun, iff_of_true ⟨_, rfl⟩ ⟨p, rfl⟩, fun r hr => ?_⟩
    cases hr
    exact ⟨p.objective, p.value, p.constraints, hobjective, hvalue, hplanned, hfulfils⟩

def planning : Model :=
  let d := Examples.Planning.model
  ⟨d.name, ⟨d.sets⟩, ⟨d.parameters⟩, ⟨d.vars⟩, ⟨d.constraints⟩, d.objective⟩

theorem planning_reachable : planning.Reachable :=
  reachable_ofData (d := Examples.Planning.model) rfl

def planningReport : Report :=
  ⟨[⟨"capacity_limit", 6, 0⟩, ⟨"initial_balance", 2, 4⟩, ⟨"balance", 4, 2⟩], 2, 6⟩

theorem compile_fresh_planning :
    planning.Reachable ∧
    (planning.compile StoredModel.target { mode := .checked } {}).result = .ok planningReport ∧
    ∃ o value qs, planning.objective = some o ∧
      o.expr.eval (planning.freshSetting { mode := .checked }) .root = .ok value ∧
      List.Forall₂ (fun c q => q.Expands (planning.freshSetting { mode := .checked }) c)
        planning.constraints.items qs ∧
      planning.Fulfils qs ⟨o.name, value, o.sense⟩ planningReport
        (planning.compile StoredModel.target { mode := .checked } {}).state := by
  have hresult : (planning.compile StoredModel.target { mode := .checked } {}).result =
      .ok planningReport := rfl
  exact ⟨planning_reachable, hresult,
    (compile_fresh planning_reachable { mode := .checked }).2.2 planningReport hresult⟩

end Model

end Milp
