import Milp.Proofs.Compilation.Totality
import Milp.Proofs.Evaluation.Agreement
import Milp.Proofs.Model.Validity
import Milp.Proofs.Storage.Representation

/-! Declarations are known by name. Neither their order nor what else is declared is seen by
evaluation, so that models with the same constraints and objective give the same rows and the same
goal. -/
namespace Milp

namespace Registry

variable {α : Type} [Named α]

/-- Whether a registry has the entries of another one, wherever they stand among its own. -/
def Extends (r' r : Registry α) : Prop := ∀ name ∈ r.names, r'.get? name = r.get? name

theorem Extends.get?_eq_some {r' r : Registry α} (h : r'.Extends r) {name : String} {x : α}
    (hx : r.get? name = some x) : r'.get? name = some x := by
  have hmem : name ∈ r.names := by
    by_contra hmem
    rw [get?_eq_none.mpr hmem] at hx
    cases hx
  rw [h name hmem, hx]

end Registry

namespace Setting

variable {V : Type} {st : Setting V} {name : String} {scope : Scope}

theorem dimension_variable {n : Nat} :
    st.dimension .variable name scope = .ok n ↔
      ∃ v, st.vars.get? name = some v ∧ v.dimension = n := by
  rw [dimension]
  cases st.vars.get? name <;> simp

theorem dimension_parameter {n : Nat} :
    st.dimension .parameter name scope = .ok n ↔
      ∃ x, st.parameters.get? name = some x ∧ x.dimension = n := by
  rw [dimension]
  cases st.parameters.get? name <;> simp

theorem lookup_variable {index : Tuple} {r : Resolved V} :
    st.lookup .variable name index scope = .ok r ↔
      ∃ i, st.handle name index = some i ∧ .symbolic (.var i) = r := by
  rw [lookup]
  cases st.handle name index <;> simp

theorem lookup_parameter {index : Tuple} {r : Resolved V} :
    st.lookup .parameter name index scope = .ok r ↔
      ∃ x n, st.parameters.get? name = some x ∧ x.get? index = some n ∧
        .host (.ofNumber n) = r := by
  rw [lookup]
  cases st.parameters.get? name with
  | none => simp
  | some x => cases hn : x.get? index <;> simp [hn]

end Setting

/-- A constraint is planned in one way. -/
theorem Planned.expands_rightUnique {V : Type} {st : Setting V} :
    Relator.RightUnique fun (c : Constraint) (q : Planned V) => q.Expands st c := by
  rintro c ⟨_, e⟩ ⟨_, e'⟩ ⟨hname, he⟩ ⟨hname', he'⟩
  rw [he, Except.ok.injEq] at he'
  congr
  exact hname.trans hname'.symm

namespace Model

/-- Whether a model has the constraints and the objective of another one, and its declarations in
any order and among any others. -/
structure Extends (m' m : Model) : Prop where
  constraints : m'.constraints = m.constraints
  objective : m'.objective = m.objective
  sets : m'.sets.Extends m.sets
  parameters : m'.parameters.Extends m.parameters
  vars : m'.vars.Extends m.vars

namespace Extends

variable {m m' : Model}

theorem family (h : m'.Extends m) {v : Variable} (hv : m.Grounded v) :
    m'.family v = m.family v := by
  have helements : ∀ name ∈ v.indices, m'.elementsOf name = m.elementsOf name := by
    intro name hname
    obtain ⟨s, hs⟩ := hv name hname
    rw [elementsOf, elementsOf, hs, h.sets.get?_eq_some hs]
  rw [Model.family, Model.family, List.map_congr_left helements]

/-- A member of a declared family is one in every extension. -/
theorem handle (h : m'.Extends m) (hgrounded : ∀ v ∈ m.vars.items, m.Grounded v) {name : String}
    {index : Tuple} {i : Member} (hi : m.declared.stored.member? name index = some i) :
    m'.declared.stored.member? name index = some i := by
  rw [CompiledModel.member?_stored, member?_declared] at hi ⊢
  obtain ⟨v, hv, hmember⟩ := Option.bind_eq_some_iff.mp hi
  rw [h.vars.get?_eq_some hv, Option.bind_some, h.family (hgrounded v (Registry.mem_of_get? hv).1)]
  exact hmember

/-- What the declarations of a model answer, those of an extension of it answer too. -/
theorem agrees (h : m'.Extends m) (hgrounded : ∀ v ∈ m.vars.items, m.Grounded v)
    (config : Config) :
    (m.freshSetting config).AgreesUnless (fun _ => True) (m'.freshSetting config) where
  -- Only results are matched: where the model fails over a name, its extension may know the name.
  elements name := by
    refine .of_results fun axis haxis => ?_
    obtain ⟨s, hs, rfl⟩ := Setting.elements_eq_ok.mp haxis
    exact Setting.elements_eq_ok.mpr ⟨s, h.sets.get?_eq_some hs, rfl⟩
  dimension kind name scope := by
    refine .of_results fun n hn => ?_
    cases kind with
    | «variable» =>
      obtain ⟨v, hv, rfl⟩ := Setting.dimension_variable.mp hn
      exact Setting.dimension_variable.mpr ⟨v, h.vars.get?_eq_some hv, rfl⟩
    | parameter =>
      obtain ⟨x, hx, rfl⟩ := Setting.dimension_parameter.mp hn
      exact Setting.dimension_parameter.mpr ⟨x, h.parameters.get?_eq_some hx, rfl⟩
  lookup kind name index scope := by
    refine .of_results fun r hr => ?_
    cases kind with
    | «variable» =>
      obtain ⟨i, hi, rfl⟩ := Setting.lookup_variable.mp hr
      exact Setting.lookup_variable.mpr ⟨i, h.handle hgrounded hi, rfl⟩
    | parameter =>
      obtain ⟨x, n, hx, hn, rfl⟩ := Setting.lookup_parameter.mp hr
      exact Setting.lookup_parameter.mpr ⟨x, n, h.parameters.get?_eq_some hx, hn, rfl⟩
  terms _ _ := .same _
  instances _ _ := .same _

/-- Constraints are planned alike. -/
theorem expands (h : m'.Extends m) (hgrounded : ∀ v ∈ m.vars.items, m.Grounded v) {config : Config}
    {c : Constraint} {q : Planned Member} (hq : q.Expands (m.freshSetting config) c) :
    q.Expands (m'.freshSetting config) c := by
  have halike := c.expand_alike (h.agrees hgrounded config)
  rw [hq.2] at halike
  exact ⟨hq.1, halike.eq_ok⟩

/-- Plans for an empty target differ in its declarations only. -/
theorem plan_eq (h : m'.Extends m) (hm : m.WellFormed) (hm' : m'.WellFormed) {config : Config}
    {p p' : Plan CompiledModel Member} (hp : m.plan CompiledModel.target config {} = .ok p)
    (hp' : m'.plan CompiledModel.target config {} = .ok p') :
    p'.objective = p.objective ∧ p'.constraints = p.constraints ∧ p'.value = p.value := by
  obtain ⟨⟨hobjective, _⟩, hgrounded, _, hplanned, hvalue⟩ := hm.plan_fresh_eq_ok.mp hp
  obtain ⟨⟨hobjective', _⟩, _, _, hplanned', hvalue'⟩ := hm'.plan_fresh_eq_ok.mp hp'
  have ho : p'.objective = p.objective := by
    rw [h.objective, hobjective] at hobjective'
    exact (Option.some.inj hobjective').symm
  refine ⟨ho, ?_, ?_⟩
  · rw [h.constraints] at hplanned'
    have hextended := hplanned.imp fun _ _ hq => h.expands hgrounded hq
    exact Planned.expands_rightUnique.forall₂ hplanned' hextended
  · have halike := p.objective.expr.eval_alike (h.agrees hgrounded config) .root
    rw [hvalue] at halike
    rw [ho, halike.eq_ok] at hvalue'
    exact (Except.ok.inj hvalue').symm

end Extends

/-- A successful compilation into an empty target has a plan and fulfils it. -/
theorem WellFormed.exists_plan {m : Model} (hm : m.WellFormed) {config : Config} {r : Report}
    (h : (m.compile CompiledModel.target config {}).result = .ok r) :
    ∃ p, m.plan CompiledModel.target config {} = .ok p ∧
      m.Fulfils p.constraints p.goal r (m.compile CompiledModel.target config {}).state.stored := by
  cases hplan : m.plan CompiledModel.target config {} with
  | error e =>
    rw [(compile_of_plan_error hplan).1] at h
    cases h
  | ok p =>
    obtain ⟨hresult, hfulfils⟩ := hm.fulfils_of_plan hplan
    rw [hresult, Except.ok.injEq] at h
    rw [h] at hfulfils
    exact ⟨p, rfl, hfulfils⟩

/-- Two models with the same constraints and objective, of which one has the declarations of the
other in any order and among any others, are compiled into the same rows and the same goal, and
reported on alike. The names of the others may even occur in the constraints: what the first model
evaluates, it declares itself. -/
theorem compile_extends {m m' : Model} (hm : m.Reachable) (hm' : m'.Reachable)
    (h : m'.Extends m) (config : Config) {r r' : Report}
    (hr : (m.compile StoredModel.target config {}).result = .ok r)
    (hr' : (m'.compile StoredModel.target config {}).result = .ok r') :
    (m'.compile StoredModel.target config {}).state.rows =
        (m.compile StoredModel.target config {}).state.rows ∧
      (m'.compile StoredModel.target config {}).state.goal =
        (m.compile StoredModel.target config {}).state.goal ∧
      r'.constraints = r.constraints ∧ r'.objectiveTerms = r.objectiveTerms := by
  simp only [CompiledModel.compile_stored_empty] at hr hr' ⊢
  obtain ⟨p, hp, hfulfils⟩ := hm.wellFormed.exists_plan hr
  obtain ⟨p', hp', hfulfils'⟩ := hm'.wellFormed.exists_plan hr'
  obtain ⟨hobjective, hconstraints, hvalue⟩ := h.plan_eq hm.wellFormed hm'.wellFormed hp hp'
  have hgoal : p'.goal = p.goal := by
    rw [Plan.goal, Plan.goal, hobjective, hvalue]
  rw [hconstraints, hgoal] at hfulfils'
  rw [hfulfils.state, hfulfils'.state, hfulfils.report, hfulfils'.report]
  exact ⟨rfl, rfl, rfl, rfl⟩

def shipping : List Edit := [
  .addConstraint (.forAll "cap" (.plain (.var "x" [.indexVar "i"]) .le
    (.param "limit" [] * .sum (.var "y" [.indexVar "j"]) [⟨"j", "J"⟩])) [⟨"i", "I", none⟩]),
  .setObjective ⟨"cost", .sum (.var "x" [.indexVar "i"]) [⟨"i", "I"⟩], .min⟩]

def shipped : Model := .ofEdits "shipping" ([
  .addSet ⟨"I", [.int 1, .int 2]⟩, .addSet ⟨"J", [.str "a", .str "b"]⟩,
  .addParameter (.ofScalar "limit" (.int 4)),
  .addVariable { name := "x", indices := ["I"] },
  .addVariable { name := "y", indices := ["J"] }] ++ shipping)

def reshipped : Model := .ofEdits "shipping" ([
  .addSet ⟨"K", [.int 1, .int 7]⟩, .addSet ⟨"J", [.str "a", .str "b"]⟩,
  .addVariable { name := "z", indices := ["K", "J"] },
  .addVariable { name := "y", indices := ["J"] },
  .addSet ⟨"I", [.int 1, .int 2]⟩,
  .addVariable { name := "x", indices := ["I"] },
  .addParameter (.ofScalar "weight" (.int 9)),
  .addParameter (.ofScalar "limit" (.int 4))] ++ shipping)

theorem reshipped_extends : reshipped.Extends shipped where
  constraints := rfl
  objective := rfl
  sets := List.forall_mem_cons.mpr ⟨rfl, List.forall_mem_cons.mpr ⟨rfl, nofun⟩⟩
  parameters := List.forall_mem_cons.mpr ⟨rfl, nofun⟩
  vars := List.forall_mem_cons.mpr ⟨rfl, List.forall_mem_cons.mpr ⟨rfl, nofun⟩⟩

theorem compile_extends_reshipped :
    shipped.Reachable ∧ reshipped.Reachable ∧ reshipped.Extends shipped ∧
      (shipped.compile StoredModel.target {} {}).result = .ok ⟨[⟨"cap", 2, 0⟩], 2, 2⟩ ∧
      (reshipped.compile StoredModel.target {} {}).result = .ok ⟨[⟨"cap", 2, 0⟩], 3, 2⟩ ∧
      (reshipped.compile StoredModel.target {} {}).state.rows =
        (shipped.compile StoredModel.target {} {}).state.rows ∧
      (reshipped.compile StoredModel.target {} {}).state.goal =
        (shipped.compile StoredModel.target {} {}).state.goal := by
  have hr : (shipped.compile StoredModel.target {} {}).result = .ok ⟨[⟨"cap", 2, 0⟩], 2, 2⟩ := rfl
  have hr' : (reshipped.compile StoredModel.target {} {}).result = .ok ⟨[⟨"cap", 2, 0⟩], 3, 2⟩ :=
    rfl
  have hm : shipped.Reachable := reachable_ofEdits _ _
  have hm' : reshipped.Reachable := reachable_ofEdits _ _
  obtain ⟨hrows, hgoal, _, _⟩ := compile_extends hm hm' reshipped_extends {} hr hr'
  exact ⟨hm, hm', reshipped_extends, hr, hr', hrows, hgoal⟩

end Model

end Milp
