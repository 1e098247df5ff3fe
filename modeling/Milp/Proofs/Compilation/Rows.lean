import Milp.Proofs.Compilation.Plan
import Milp.Proofs.Expansion
import Milp.Proofs.Model.History

/-! The rows that a compilation plans. In a well-formed model no two of them share a key: names of
constraints are unique, and a constraint has at most one instance per tuple because no set repeats
an element. -/
namespace Milp

variable {V : Type}

def Planned.rows (q : Planned Member) : List Row := q.expansion.instances.map (Row.mk q.name)

def Plan.rows {σ : Type} (p : Plan σ Member) : List Row := p.constraints.flatMap Planned.rows

theorem Planned.calls_eq (q : Planned Member) : q.calls = q.rows.map Row.call := by
  rw [calls, rows, List.map_map]
  rfl

def Plan.goal {σ : Type} (p : Plan σ Member) : Goal :=
  ⟨p.objective.name, p.value, p.objective.sense⟩

/-- A plan is delivered row by row, the goal last. -/
theorem Plan.emissions_eq {σ : Type} (p : Plan σ Member) :
    Model.emissions p.constraints p.objective p.value =
      p.rows.map Row.call ++ [.setObjective p.goal.name p.goal.value p.goal.sense] := by
  rw [Model.emissions, rows, List.map_flatMap]
  congr 2
  funext q
  exact q.calls_eq

/-- No two instances of a constraint share a tuple when no set repeats an element. -/
theorem Constraint.nodup_tuples {st : Setting V} {c : Constraint} {e : Expansion V}
    (hsets : ∀ s ∈ st.sets.items, s.elements.Nodup) (h : c.expand st = .ok e) :
    (e.instances.map fun i => i.index.getD []).Nodup := by
  by_cases hq : c.quantifiers = []
  · rw [expand_unquantified hq] at h
    obtain ⟨r, _, rfl⟩ := map_eq_ok.mp h
    exact List.nodup_singleton _
  · rw [expand_quantified hq] at h
    obtain ⟨axes, haxes, h⟩ := bind_eq_ok.mp h
    cases hlimit : exceeded? axes st.limits.instances with
    | some p => simp [hlimit] at h
    | none =>
      simp only [hlimit] at h
      obtain ⟨sets, hget, rfl⟩ := Setting.axes_eq_ok.mp haxes
      have hnodup : (tuples (sets.map IndexSet.elements)).Nodup := by
        refine Milp.nodup_tuples fun axis haxis => ?_
        obtain ⟨s, hs, rfl⟩ := List.mem_map.mp haxis
        obtain ⟨name, _, hname⟩ := List.mem_map.mp (hget ▸ List.mem_map_of_mem hs)
        exact hsets s (Registry.mem_of_get? hname).1
      have hsub := (walk_sublist h).map fun index => index.getD []
      rw [List.map_map, List.map_map] at hsub
      refine hsub.nodup ?_
      simpa [Function.comp_def] using hnodup

theorem Planned.nodup_keys {st : Setting Member} {c : Constraint} {q : Planned Member}
    (hsets : ∀ s ∈ st.sets.items, s.elements.Nodup) (h : q.Expands st c) :
    (q.rows.map Row.key).Nodup := by
  have hkeys : q.rows.map Row.key =
      (q.expansion.instances.map fun i => i.index.getD []).map (q.name, ·) := by
    rw [rows, List.map_map, List.map_map]
    rfl
  rw [hkeys]
  exact (Constraint.nodup_tuples hsets h.2).map (Prod.mk_right_injective _)

theorem Planned.constraint_of_mem_rows {q : Planned Member} {r : Row} (h : r ∈ q.rows) :
    r.constraint = q.name := by
  obtain ⟨i, _, rfl⟩ := List.mem_map.mp h
  rfl

theorem map_name_eq {st : Setting V} {cs : List Constraint} {qs : List (Planned V)}
    (h : List.Forall₂ (fun c q => q.Expands st c) cs qs) :
    qs.map Planned.name = cs.map Constraint.name := by
  induction h with
  | nil => rfl
  | cons hq _ ih => rw [List.map_cons, List.map_cons, ih, hq.1]

/-- Planned constraints of unique names and sets without repetition give rows of distinct keys. -/
theorem nodup_keys {st : Setting Member} {cs : List Constraint} {qs : List (Planned Member)}
    (hnames : (cs.map Constraint.name).Nodup) (hsets : ∀ s ∈ st.sets.items, s.elements.Nodup)
    (h : List.Forall₂ (fun c q => q.Expands st c) cs qs) :
    ((qs.flatMap Planned.rows).map Row.key).Nodup := by
  induction h with
  | nil => exact List.nodup_nil
  | @cons c q cs qs hq hqs ih =>
    rw [List.map_cons, List.nodup_cons] at hnames
    rw [List.flatMap_cons, List.map_append, List.nodup_append]
    refine ⟨Planned.nodup_keys hsets hq, ih hnames.2, ?_⟩
    -- A key that the first constraint shares with a later one gives both the same name.
    rintro _ hk _ hl rfl
    obtain ⟨r, hr, rfl⟩ := List.mem_map.mp hk
    obtain ⟨s, hs, hkey⟩ := List.mem_map.mp hl
    obtain ⟨p, hp, hs⟩ := List.mem_flatMap.mp hs
    have hname : p.name = c.name := by
      rw [← hq.1, ← Planned.constraint_of_mem_rows hr, ← Planned.constraint_of_mem_rows hs]
      exact congrArg Prod.fst hkey
    refine hnames.1 ?_
    rw [← hname, ← map_name_eq hqs]
    exact List.mem_map_of_mem hp

namespace Model

variable {m : Model} {config : Config} {s : CompiledModel} {p : Plan CompiledModel Member}

theorem declarations_isDeclaration (m : Model) :
    ∀ c ∈ (m.declarations (V := V)).1, c.isDeclaration = true := by
  intro c hc
  rw [declarations, List.mem_append, List.mem_append] at hc
  rcases hc with (hc | hc) | hc
  · obtain ⟨s, _, rfl⟩ := List.mem_map.mp hc
    rfl
  · obtain ⟨p, _, rfl⟩ := List.mem_map.mp hc
    rfl
  · obtain ⟨v, _, hv⟩ := mem_collect hc
    obtain ⟨sets, _, rfl⟩ := map_eq_ok.mp hv
    rfl

theorem declare_keeps (m : Model) (s : CompiledModel) :
    (m.declare CompiledModel.target s).state.rows = s.rows ∧
      (m.declare CompiledModel.target s).state.goal = s.goal :=
  CompiledModel.rows_deliver_declarations m.declarations_isDeclaration s

/-- The rows that a well-formed model plans have distinct keys. -/
theorem WellFormed.nodup_keys (hm : m.WellFormed)
    (h : m.plan CompiledModel.target config s = .ok p) :
    (p.rows.map Row.key).Nodup := by
  obtain ⟨_, _, _, hplanned, _⟩ := plan_eq_ok.mp h
  refine Milp.nodup_keys hm.constraints (fun t ht => ?_) hplanned
  exact (IndexSet.check_eq_ok.mp (hm.elements t ht)).2

private theorem isFree_declared (h : m.plan CompiledModel.target config s = .ok p) :
    p.declared.isFree = s.isFree ∧ p.declared.rows = s.rows := by
  obtain ⟨_, _, hdeclared, _⟩ := plan_eq_ok.mp h
  have hrows : p.declared.rows = s.rows := by rw [hdeclared, (m.declare_keeps s).1]
  refine ⟨?_, hrows⟩
  funext r
  rw [CompiledModel.isFree, CompiledModel.isFree, hrows]

/-- A plan whose rows are all free in the target is delivered in full. -/
theorem compile_of_free (hm : m.WellFormed) (h : m.plan CompiledModel.target config s = .ok p)
    (hfree : ∀ r ∈ p.rows, s.isFree r = true) :
    (m.compile CompiledModel.target config s).result = .ok (m.report p.constraints p.value) ∧
      (m.compile CompiledModel.target config s).state =
        { p.declared with rows := s.rows ++ p.rows, goal := some p.goal } := by
  obtain ⟨hsame, hrows⟩ := isFree_declared h
  obtain ⟨hrefusal, hstate⟩ :=
    CompiledModel.deliver_of_free (hm.nodup_keys h) (hsame ▸ hfree) p.goal
  obtain ⟨hcstate, hresult⟩ := compile_of_plan h
  rw [hcstate, hresult, p.emissions_eq, hrefusal, hstate, hrows]
  exact ⟨rfl, rfl⟩

/-- A plan one of whose rows is taken in the target is refused at the first such row, and the rows
before it stay there. -/
theorem compile_of_taken (hm : m.WellFormed) (h : m.plan CompiledModel.target config s = .ok p)
    (htaken : ∃ r ∈ p.rows, s.isFree r = false) :
    (∃ e, (m.compile CompiledModel.target config s).result = .error e) ∧
      (m.compile CompiledModel.target config s).state =
        { p.declared with rows := s.rows ++ p.rows.takeWhile s.isFree } := by
  obtain ⟨hsame, hrows⟩ := isFree_declared h
  obtain ⟨⟨e, hrefusal⟩, hstate⟩ :=
    CompiledModel.deliver_of_taken (hm.nodup_keys h) (hsame ▸ htaken) p.goal
  obtain ⟨hcstate, hresult⟩ := compile_of_plan h
  rw [hcstate, hresult, p.emissions_eq, hrefusal, hstate, hrows, hsame]
  exact ⟨⟨e, rfl⟩, rfl⟩

end Model

end Milp
