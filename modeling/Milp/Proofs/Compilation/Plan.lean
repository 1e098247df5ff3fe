import Milp.Model.Compile
import Milp.Proofs.Delivery
import Milp.Proofs.Failure

/-! Compilation in two phases. The first one declares and evaluates everything and ends in a plan;
the second one delivers the plan. Whatever goes wrong in the first phase, the target has received
declarations only. -/
namespace Milp

variable {σ V : Type}

/-- The results of a function, or its first failure, whichever `collect` found. -/
theorem mapM_eq_collect {α β ε : Type} (f : α → Except ε β) (as : List α) :
    as.mapM f = match (collect f as).2 with
      | some e => .error e
      | none => .ok (collect f as).1 := by
  induction as with
  | nil => rfl
  | cons a as ih =>
    rw [List.mapM_cons, collect]
    cases f a with
    | error e => rfl
    | ok b =>
      rw [ok_bind, ih]
      cases (collect f as).2 <;> rfl

/-- What `collect` found are the results for a first part of the list, and for all of it when
nothing failed. -/
theorem collect_split {α β ε : Type} (f : α → Except ε β) (as : List α) :
    ∃ done rest, as = done ++ rest ∧ List.Forall₂ (fun a b => f a = .ok b) done (collect f as).1 ∧
      ((collect f as).2 = none → rest = []) := by
  induction as with
  | nil => exact ⟨[], [], rfl, .nil, fun _ => rfl⟩
  | cons a as ih =>
    rw [collect]
    cases ha : f a with
    | error e => exact ⟨[], a :: as, rfl, .nil, nofun⟩
    | ok b =>
      obtain ⟨done, rest, has, hdone, hrest⟩ := ih
      exact ⟨a :: done, rest, by rw [has]; rfl, .cons ha hdone, hrest⟩

/-- A failure that `collect` found is that of the element after those it has results for. -/
theorem collect_failure {α β ε : Type} {f : α → Except ε β} {as : List α} {e : ε}
    (h : (collect f as).2 = some e) :
    ∃ before a after, as = before ++ a :: after ∧ f a = .error e ∧
      List.Forall₂ (fun a b => f a = .ok b) before (collect f as).1 := by
  induction as with
  | nil => cases h
  | cons a as ih =>
    rw [collect] at h ⊢
    cases ha : f a with
    | error e' =>
      rw [ha] at h
      cases h
      exact ⟨[], a, as, rfl, ha, .nil⟩
    | ok b =>
      rw [ha] at h
      obtain ⟨before, a', after, has, hfails, hbefore⟩ := ih h
      exact ⟨a :: before, a', after, by rw [has]; rfl, hfails, .cons ha hbefore⟩

theorem mem_collect {α β ε : Type} {f : α → Except ε β} {as : List α} {b : β}
    (h : b ∈ (collect f as).1) : ∃ a ∈ as, f a = .ok b := by
  induction as with
  | nil => cases h
  | cons a as ih =>
    rw [collect] at h
    cases ha : f a with
    | error e =>
      rw [ha] at h
      cases h
    | ok b' =>
      rw [ha] at h
      rcases List.mem_cons.mp h with rfl | h
      · exact ⟨a, List.mem_cons_self, ha⟩
      · obtain ⟨a', ha', hb⟩ := ih h
        exact ⟨a', List.mem_cons_of_mem a ha', hb⟩

def Planned.Expands (st : Setting V) (c : Constraint) (q : Planned V) : Prop :=
  q.name = c.name ∧ c.expand st = .ok q.expansion

private theorem map_mk_eq_ok {st : Setting V} {c : Constraint} {q : Planned V} :
    (c.expand st).map (Planned.mk c.name) = .ok q ↔ q.Expands st c := by
  obtain ⟨name, expansion⟩ := q
  rw [map_eq_ok, Planned.Expands]
  constructor
  · rintro ⟨e, he, ⟨⟩⟩
    exact ⟨rfl, he⟩
  · rintro ⟨rfl, he⟩
    exact ⟨expansion, he, rfl⟩

/-- Everything that is delivered once declarations are made and evaluation is complete. -/
structure Plan (σ V : Type) where
  objective : Objective
  /-- The target after the declarations. -/
  declared : σ
  constraints : List (Planned V)
  value : Resolved V

namespace Model

def declare (m : Model) (t : Target σ V) (s : σ) : Delivery σ V := t.deliver m.declarations.1 s

/-- The failure of the declarations: a refusal of the target, or a variable over an unknown set. -/
def declareFailure (m : Model) (t : Target σ V) (s : σ) : Option Error :=
  (m.declare t s).refusal.or (m.declarations (V := V)).2

theorem ready_eq_ok {m : Model} {mode : CheckMode} {o : Objective} :
    m.ready mode = .ok o ↔ m.objective = some o ∧ (mode = .checked → m.check = .ok ()) := by
  rw [ready]
  cases m.objective with
  | none => simp
  | some o' =>
    cases mode with
    | fast => simp
    | checked => cases m.check <;> simp [Except.map]

def plan (m : Model) (t : Target σ V) (config : Config) (s : σ) : Except Error (Plan σ V) := do
  let o ← m.ready config.mode
  match m.declareFailure t s with
  | some e => .error e
  | none =>
    let st := m.setting t config.limits (m.declare t s).state
    let planned ← m.constraints.items.mapM fun c => (c.expand st).map (Planned.mk c.name)
    let value ← o.expr.eval st Scope.root
    return ⟨o, (m.declare t s).state, planned, value⟩

theorem compile_ready {m : Model} {t : Target σ V} {config : Config} {s : σ}
    {o : Objective} (h : m.ready config.mode = .ok o) :
    m.compile t config s =
      match m.declareFailure t s with
      | some e => ⟨.error e, (m.declare t s).state, [m.started]⟩
      | none =>
        let st := m.setting t config.limits (m.declare t s).state
        let events := m.started :: (m.expansions st).1.map Planned.event
        match (m.expansions st).2 with
        | some e => ⟨.error e, (m.declare t s).state, events⟩
        | none =>
          match o.expr.eval st Scope.root with
          | .error e => ⟨.error e, (m.declare t s).state, events⟩
          | .ok value =>
            m.emit t config.mode o (m.expansions st).1 value
              (events ++ [.objectiveCompiled o.name o.sense value.termCount])
              (m.declare t s).state := by
  rw [compile, h]
  rfl

/-- A model that is not ready is refused before the target is called. -/
theorem compile_of_unready {m : Model} {t : Target σ V} {config : Config} {s : σ} {e : Error}
    (h : m.ready config.mode = .error e) : m.compile t config s = ⟨.error e, s, []⟩ := by
  rw [compile, h]

/-- A ready model without a plan fails as the plan does, after its declarations. -/
theorem compile_of_unplanned {m : Model} {t : Target σ V} {config : Config} {s : σ}
    {o : Objective} {e : Error} (hready : m.ready config.mode = .ok o)
    (h : m.plan t config s = .error e) :
    (m.compile t config s).result = .error e ∧
      (m.compile t config s).state = (m.declare t s).state := by
  rw [plan, hready, ok_bind] at h
  rw [compile_ready hready]
  cases hdeclare : m.declareFailure t s with
  | some e' =>
    rw [hdeclare] at h
    cases h
    exact ⟨rfl, rfl⟩
  | none =>
    simp only [hdeclare, mapM_eq_collect] at h
    simp only [expansions]
    split
    · rename_i hfailure
      rw [hfailure] at h
      cases h
      exact ⟨rfl, rfl⟩
    · rename_i hfailure
      rw [hfailure, ok_bind] at h
      cases hvalue : o.expr.eval (m.setting t config.limits (m.declare t s).state)
          Scope.root with
      | error e' =>
        rw [hvalue] at h
        cases h
        exact ⟨rfl, rfl⟩
      | ok value =>
        rw [hvalue] at h
        cases h

/-- A compilation without a plan fails as the plan does, and at most declares. -/
theorem compile_of_plan_error {m : Model} {t : Target σ V} {config : Config} {s : σ} {e : Error}
    (h : m.plan t config s = .error e) :
    (m.compile t config s).result = .error e ∧
      ((m.compile t config s).state = s ∨
        (m.compile t config s).state = (m.declare t s).state) := by
  cases hready : m.ready config.mode with
  | error e' =>
    rw [plan, hready] at h
    cases h
    rw [compile_of_unready hready]
    exact ⟨rfl, .inl rfl⟩
  | ok o =>
    obtain ⟨hresult, hstate⟩ := compile_of_unplanned hready h
    exact ⟨hresult, .inr hstate⟩

private theorem emit_eq (m : Model) (t : Target σ V) (mode : CheckMode) (o : Objective)
    (planned : List (Planned V)) (value : Resolved V) (events : List Event) (s : σ) :
    (m.emit t mode o planned value events s).state =
        (t.deliver (emissions planned o value) s).state ∧
      (m.emit t mode o planned value events s).result =
        match (t.deliver (emissions planned o value) s).refusal with
        | some e => .error e
        | none => .ok (m.report planned value) := by
  simp only [emit]
  cases (t.deliver (emissions planned o value) s).refusal with
  | some e => exact ⟨rfl, rfl⟩
  | none => exact ⟨rfl, rfl⟩

/-- A compilation with a plan delivers it, and fails exactly when that is refused. -/
theorem compile_of_plan {m : Model} {t : Target σ V} {config : Config} {s : σ} {p : Plan σ V}
    (h : m.plan t config s = .ok p) :
    (m.compile t config s).state =
        (t.deliver (emissions p.constraints p.objective p.value) p.declared).state ∧
      (m.compile t config s).result =
        match (t.deliver (emissions p.constraints p.objective p.value) p.declared).refusal with
        | some e => .error e
        | none => .ok (m.report p.constraints p.value) := by
  obtain ⟨o, hready, h⟩ := bind_eq_ok.mp h
  rw [compile_ready hready]
  cases hdeclare : m.declareFailure t s with
  | some e' => simp [hdeclare] at h
  | none =>
    simp only [hdeclare, mapM_eq_collect] at h
    obtain ⟨planned, hplanned, h⟩ := bind_eq_ok.mp h
    obtain ⟨value, hvalue, h⟩ := bind_eq_ok.mp h
    cases h
    simp only [expansions, hvalue]
    split at hplanned
    · cases hplanned
    · rename_i hfailure
      cases hplanned
      simp only [hfailure]
      exact emit_eq m t config.mode o _ value _ _

/-- What a plan is made of. -/
theorem plan_eq_ok {m : Model} {t : Target σ V} {config : Config} {s : σ} {p : Plan σ V} :
    m.plan t config s = .ok p ↔
      m.ready config.mode = .ok p.objective ∧ m.declareFailure t s = none ∧
      p.declared = (m.declare t s).state ∧
      List.Forall₂ (fun c q => q.Expands (m.setting t config.limits p.declared) c)
        m.constraints.items p.constraints ∧
      p.objective.expr.eval (m.setting t config.limits p.declared) Scope.root = .ok p.value := by
  obtain ⟨o, declared, planned, value⟩ := p
  simp only [← map_mk_eq_ok]
  rw [plan, bind_eq_ok]
  constructor
  · rintro ⟨o', hready, h⟩
    cases hdeclare : m.declareFailure t s with
    | some e => simp [hdeclare] at h
    | none =>
      simp only [hdeclare] at h
      obtain ⟨planned', hplanned, h⟩ := bind_eq_ok.mp h
      obtain ⟨value', hvalue, h⟩ := bind_eq_ok.mp h
      cases h
      exact ⟨hready, rfl, rfl, mapM_eq_ok.mp hplanned, hvalue⟩
  · rintro ⟨hready, hdeclare, hdeclared, hplanned, hvalue⟩
    refine ⟨o, hready, ?_⟩
    cases hdeclared
    simp only [hdeclare, mapM_eq_ok.mpr hplanned, hvalue, ok_bind]
    rfl

end Model

end Milp
