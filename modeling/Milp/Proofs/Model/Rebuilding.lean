import Milp.Expr.Builder
import Milp.Proofs.Expr.Induction
import Milp.Proofs.Model.Validity

/-! Building a model from lists of declarations. The declarations are added one by one to a growing
model, but the outcome can be read off the lists as a whole: all of them are checked against all
listed sets, and then the names that are repeated are merged. So a model that is rebuilt from its
own declarations is the same model, or fails as its check does. -/
namespace Milp

def Expr.RangesOver (e : Expr) (set : String) : Prop :=
  ∃ a, Within (.aggregate a) e ∧ ∃ r ∈ a.ranges, r.set = set

def Comparison.RangesOver (c : Comparison Expr) (set : String) : Prop :=
  c.left.RangesOver set ∨ c.right.RangesOver set

def Constraint.RangesOver (c : Constraint) (set : String) : Prop :=
  (∃ q ∈ c.quantifiers, q.set = set ∨ ∃ d, q.condition = some d ∧ d.RangesOver set) ∨
    c.body.RangesOver set

theorem Expr.mem_setNamesAll {es : List Expr} {set : String} :
    set ∈ Expr.setNamesAll es ↔ ∃ e ∈ es, set ∈ e.setNames := by
  induction es with
  | nil => simp [Expr.setNamesAll]
  | cons e es ih => simp [Expr.setNamesAll, ih]

theorem Comparison.mem_setNames_sides {c : Comparison Expr} {set : String} :
    set ∈ Comparison.setNames c ↔ set ∈ c.left.setNames ∨ set ∈ c.right.setNames := by
  obtain ⟨form, l, relation, r⟩ := c
  rw [Comparison.setNames]
  exact List.mem_append

theorem Aggregation.mem_setNames_parts {a : Aggregation Expr} {set : String} :
    set ∈ Aggregation.setNames a ↔ (∃ r ∈ a.ranges, r.set = set) ∨
      (∃ c, a.condition = some c ∧ set ∈ Comparison.setNames c) ∨ set ∈ a.body.setNames := by
  obtain ⟨op, body, ranges, condition⟩ := a
  rw [Aggregation.setNames, List.append_assoc, List.mem_append, List.mem_append, List.mem_map]
  cases condition <;> simp [Condition.setNames]

/-- The sets of a part are sets of the whole. -/
theorem Expr.Within.setNames_subset {d e : Expr} (h : Within d e) : d.setNames ⊆ e.setNames := by
  intro set hset
  induction h with
  | refl => exact hset
  | position he _ ih => exact Expr.mem_setNamesAll.mpr ⟨_, he, ih⟩
  | operand _ ih => exact ih
  | left _ ih => exact List.mem_append_left _ ih
  | right _ ih => exact List.mem_append_right _ ih
  | body _ ih => exact Aggregation.mem_setNames_parts.mpr (.inr (.inr ih))
  | conditionLeft _ ih =>
    exact Aggregation.mem_setNames_parts.mpr
      (.inr (.inl ⟨_, rfl, Comparison.mem_setNames_sides.mpr (.inl ih)⟩))
  | conditionRight _ ih =>
    exact Aggregation.mem_setNames_parts.mpr
      (.inr (.inl ⟨_, rfl, Comparison.mem_setNames_sides.mpr (.inr ih)⟩))

/-- A range of an aggregation stays one in whatever the aggregation stands in. -/
theorem Expr.RangesOver.within {d e : Expr} {set : String} (h : d.RangesOver set)
    (he : ∀ a, Within (.aggregate a) d → Within (.aggregate a) e) : e.RangesOver set := by
  obtain ⟨a, ha, hset⟩ := h
  exact ⟨a, he a ha, hset⟩

/-- The sets that are checked for an expression are those of its aggregations. -/
theorem Expr.mem_setNames {e : Expr} {set : String} : set ∈ e.setNames ↔ e.RangesOver set := by
  constructor
  · intro h
    induction e with
    | number n => cases h
    | string s => cases h
    | indexVar name => cases h
    | ref kind name => cases h
    | refAt kind name positions ih =>
      obtain ⟨d, hd, hset⟩ := Expr.mem_setNamesAll.mp h
      exact (ih d hd hset).within fun _ => .position hd
    | unary op d ih => exact (ih h).within fun _ => .operand
    | binary op l r ihl ihr =>
      rcases List.mem_append.mp h with h | h
      · exact (ihl h).within fun _ => .left
      · exact (ihr h).within fun _ => .right
    | aggregate op body ranges condition ih ihc =>
      rcases Aggregation.mem_setNames_parts.mp h with hrange | ⟨c, rfl, hcondition⟩ | hbody
      · exact ⟨_, .refl, hrange⟩
      · obtain ⟨hleft, hright⟩ := ihc c rfl
        rcases Comparison.mem_setNames_sides.mp hcondition with hset | hset
        · exact (hleft hset).within fun _ => .conditionLeft
        · exact (hright hset).within fun _ => .conditionRight
      · exact (ih hbody).within fun _ => .body
  · rintro ⟨a, ha, hset⟩
    exact ha.setNames_subset (Aggregation.mem_setNames_parts.mpr (.inl hset))

theorem Comparison.mem_setNames {c : Comparison Expr} {set : String} :
    set ∈ Comparison.setNames c ↔ c.RangesOver set := by
  rw [Comparison.mem_setNames_sides, Expr.mem_setNames, Expr.mem_setNames, RangesOver]

theorem Constraint.mem_setNames {c : Constraint} {set : String} :
    set ∈ c.setNames ↔ c.RangesOver set := by
  have hcondition (q : Quantifier) : set ∈ Condition.setNames q.condition ↔
      ∃ d, q.condition = some d ∧ d.RangesOver set := by
    cases q.condition with
    | none => exact iff_of_false nofun nofun
    | some d =>
      rw [Condition.setNames, Comparison.mem_setNames]
      simp
  rw [setNames, RangesOver, List.mem_append, List.mem_flatMap, Comparison.mem_setNames]
  simp only [List.mem_cons, hcondition, eq_comm]

namespace ModelData

def RefersTo (d : ModelData) (set : String) : Prop :=
  (∃ p ∈ d.parameters, set ∈ p.indices) ∨ (∃ v ∈ d.vars, set ∈ v.indices) ∨
    (∃ c ∈ d.constraints, c.RangesOver set) ∨ ∃ o, d.objective = some o ∧ o.expr.RangesOver set

/-- What lists of declarations must fulfil, each declaration by itself and against the listed
sets. Repeated names are no obstacle. -/
structure Admissible (d : ModelData) : Prop where
  sets : ∀ s ∈ d.sets, s.check = .ok ()
  references : ∀ set, d.RefersTo set → set ∈ d.sets.map IndexSet.name
  constraints : ∀ c ∈ d.constraints, c.check = .ok ()
  objective : ∀ o, d.objective = some o → o.expr.check = .ok ()

def merged (d : ModelData) : ModelData where
  name := d.name
  sets := Registry.merged d.sets
  parameters := Registry.merged d.parameters
  vars := Registry.merged d.vars
  constraints := Registry.merged d.constraints
  objective := d.objective

structure Distinct (d : ModelData) : Prop where
  sets : (d.sets.map IndexSet.name).Nodup
  parameters : (d.parameters.map Parameter.name).Nodup
  vars : (d.vars.map Variable.name).Nodup
  constraints : (d.constraints.map Constraint.name).Nodup

/-- The model that the lists register, whether or not they pass their checks. -/
def registered (d : ModelData) : Model where
  name := d.name
  sets := .ofList d.sets
  parameters := .ofList d.parameters
  vars := .ofList d.vars
  constraints := .ofList d.constraints
  objective := d.objective

def check (d : ModelData) : Except Error Unit := do
  d.sets.forM IndexSet.check
  d.parameters.forM fun p => d.registered.checkNames p.indices
  d.vars.forM fun v => d.registered.checkNames v.indices
  d.constraints.forM d.registered.checkConstraint
  d.objective.toList.forM d.registered.checkObjective

theorem merged_eq_self {d : ModelData} : d.merged = d ↔ d.Distinct := by
  obtain ⟨name, sets, parameters, vars, constraints, objective⟩ := d
  simp only [merged, ModelData.mk.injEq, Registry.merged_eq_self, true_and, and_true]
  exact ⟨fun ⟨hs, hp, hv, hc⟩ => ⟨hs, hp, hv, hc⟩, fun ⟨hs, hp, hv, hc⟩ => ⟨hs, hp, hv, hc⟩⟩

theorem toData_registered (d : ModelData) : d.registered.toData = d.merged := by
  simp only [Model.toData, registered, merged, Registry.items_ofList]

end ModelData

namespace Model

/-- Adding declarations to one registry checks all of them and then registers all of them, as their
checks do not look at that registry. -/
private theorem addAll_insert {α : Type} [Named α] {add : Model → α → Except Error Unit × Model}
    {check : α → Except Error Unit} (put : Registry α → Model)
    (hadd : ∀ r x, add (put r) x = (put r).attempt (check x) (put (r.insert x))) (xs : List α)
    (r : Registry α) :
    addAll add (put r) xs = (xs.forM check).map fun _ => put (xs.foldl Registry.insert r) := by
  induction xs generalizing r with
  | nil => rfl
  | cons x xs ih =>
    change (accepted (add (put r) x) >>= fun m => addAll add m xs) =
      (check x >>= fun _ => xs.forM check).map _
    rw [hadd]
    cases check x with
    | error e => rfl
    | ok _ => exact ih (r.insert x)

/-- Building a model is checking all its declarations and registering them. -/
theorem ofData_eq (d : ModelData) : ofData d = d.check.map fun _ => d.registered := by
  obtain ⟨name, sets, parameters, vars, constraints, objective⟩ := d
  let m : Model := ModelData.registered ⟨name, sets, parameters, vars, constraints, objective⟩
  have hsets : addAll addSet { name } sets =
      (sets.forM IndexSet.check).map fun _ => { name, sets := m.sets } :=
    addAll_insert (fun r => { name, sets := r }) (fun _ _ => rfl) sets .empty
  have hparameters : addAll addParameter { name, sets := m.sets } parameters =
      (parameters.forM fun p => m.checkNames p.indices).map fun _ =>
        { name, sets := m.sets, parameters := m.parameters } :=
    addAll_insert (fun r => { name, sets := m.sets, parameters := r }) (fun _ _ => rfl)
      parameters .empty
  have hvars : addAll addVariable { name, sets := m.sets, parameters := m.parameters } vars =
      (vars.forM fun v => m.checkNames v.indices).map fun _ =>
        { name, sets := m.sets, parameters := m.parameters, vars := m.vars } :=
    addAll_insert (fun r => { name, sets := m.sets, parameters := m.parameters, vars := r })
      (fun _ _ => rfl) vars .empty
  have hconstraints : addAll addConstraint
        { name, sets := m.sets, parameters := m.parameters, vars := m.vars } constraints =
      (constraints.forM m.checkConstraint).map fun _ => { m with objective := none } :=
    addAll_insert (fun r => { m with constraints := r, objective := none })
      (fun _ _ => rfl) constraints .empty
  have hobjective : addAll setObjective { m with objective := none } objective.toList =
      (objective.toList.forM m.checkObjective).map fun _ => m := by
    cases objective with
    | none => rfl
    | some o =>
      change
        (accepted (attempt { m with objective := none } (m.checkObjective o) m) >>= Except.ok) =
          (m.checkObjective o >>= fun _ => Except.ok ()).map fun _ => m
      cases m.checkObjective o <;> rfl
  simp only [ofData, ModelData.check, hsets, hparameters, hvars, hconstraints, hobjective,
    map_bind, bind_map]
  rfl

theorem checkNames_eq_ok_iff {m : Model} {names : List String} :
    m.checkNames names = .ok () ↔ ∀ set ∈ names, set ∈ m.sets.names := by
  refine ⟨checkNames_eq_ok, fun h => forM_eq_ok.mpr fun set hset => ?_⟩
  obtain ⟨s, hs⟩ := findSet_isOk.mpr (h set hset)
  rw [hs]
  rfl

theorem checkConstraint_eq_ok {m : Model} {c : Constraint} :
    m.checkConstraint c = .ok () ↔
      c.check = .ok () ∧ ∀ set, c.RangesOver set → set ∈ m.sets.names := by
  rw [checkConstraint, check_bind_eq_ok, checkNames_eq_ok_iff]
  simp only [Constraint.mem_setNames]

theorem checkObjective_eq_ok {m : Model} {o : Objective} :
    m.checkObjective o = .ok () ↔
      o.expr.check = .ok () ∧ ∀ set, o.expr.RangesOver set → set ∈ m.sets.names := by
  rw [checkObjective, check_bind_eq_ok, checkNames_eq_ok_iff]
  simp only [Expr.mem_setNames]

/-- Registering declarations that pass their check gives a model that passes its own: it holds none
but listed declarations. -/
theorem check_registered {d : ModelData} (h : d.check = .ok ()) : d.registered.check = .ok () := by
  simp only [ModelData.check, check_bind_eq_ok, forM_eq_ok] at h
  obtain ⟨hsets, hparameters, hvars, hconstraints, hobjective⟩ := h
  simp only [check, check_bind_eq_ok, forM_eq_ok]
  simp only [ModelData.registered, Registry.items_ofList]
  refine ⟨fun s hs => ?_, fun p hp => ?_, fun v hv => ?_, fun c hc => ?_, hobjective⟩
  · exact hsets s (Registry.mem_of_mem_merged hs)
  · exact hparameters p (Registry.mem_of_mem_merged hp)
  · exact hvars v (Registry.mem_of_mem_merged hv)
  · exact hconstraints c (Registry.mem_of_mem_merged hc)

/-- The declarations of a well-formed model register that model. -/
theorem WellFormed.registered_toData {m : Model} (hm : m.WellFormed) : m.toData.registered = m := by
  obtain ⟨name, sets, parameters, vars, constraints, objective⟩ := m
  simp only [ModelData.registered, toData, Registry.ofList_of_nodup hm.sets,
    Registry.ofList_of_nodup hm.parameters, Registry.ofList_of_nodup hm.vars,
    Registry.ofList_of_nodup hm.constraints]

theorem WellFormed.check_toData {m : Model} (hm : m.WellFormed) : m.toData.check = m.check := by
  rw [ModelData.check, hm.registered_toData]
  rfl

/-- Rebuilding a model from its own declarations agrees with its check, whatever edits the model
went through: it gives the model back when the check passes, and else fails as the check does. -/
theorem ofData_toData {m : Model} (hm : m.Reachable) :
    (m.check = .ok () → ofData m.toData = .ok m) ∧
      ∀ e, m.check = .error e → ofData m.toData = .error e := by
  have hwf := hm.wellFormed
  rw [ofData_eq, hwf.check_toData, hwf.registered_toData]
  cases m.check with
  | ok _ => exact ⟨fun _ => rfl, nofun⟩
  | error e => exact ⟨nofun, fun _ he => he ▸ rfl⟩

def moored : Model :=
  ofEdits "berths" [.addSet ⟨"I", [.int 1, .int 2]⟩, .addSet ⟨"J", [.str "a"]⟩,
    .addVariable { name := "x", indices := ["I"] },
    .addConstraint (.forAll "cap" (.plain (.sum (.var "x" [.indexVar "i"]) [⟨"j", "J"⟩]) .le
      (.int 4)) [⟨"i", "I", none⟩])]

def adrift : Model := moored.edit (.removeSet "J")

theorem moored_reachable : moored.Reachable := reachable_ofEdits _ _

theorem ofData_toData_adrift :
    (moored.Reachable ∧ moored.check = .ok () ∧ ofData moored.toData = .ok moored) ∧
      adrift.Reachable ∧ adrift.check = .error (.unknownSet "J") ∧
        ofData adrift.toData = .error (.unknownSet "J") :=
  ⟨⟨moored_reachable, rfl, (ofData_toData moored_reachable).1 rfl⟩,
    moored_reachable.edit _, rfl, (ofData_toData (moored_reachable.edit _)).2 _ rfl⟩

end Model

namespace ModelData

/-- The check passes exactly when the lists are admissible. -/
theorem check_eq_ok {d : ModelData} : d.check = .ok () ↔ d.Admissible := by
  have hknown {set : String} :
      set ∈ d.registered.sets.names ↔ set ∈ d.sets.map IndexSet.name := by
    rw [registered, Registry.names_ofList, List.mem_eraseDups]
    rfl
  simp only [check, check_bind_eq_ok, forM_eq_ok, Model.checkNames_eq_ok_iff,
    Model.checkConstraint_eq_ok, Model.checkObjective_eq_ok, hknown, Option.mem_toList]
  constructor
  · rintro ⟨hsets, hparameters, hvars, hconstraints, hobjective⟩
    refine ⟨hsets, ?_, fun c hc => (hconstraints c hc).1, fun o ho => (hobjective o ho).1⟩
    rintro set (⟨p, hp, hset⟩ | ⟨v, hv, hset⟩ | ⟨c, hc, hset⟩ | ⟨o, ho, hset⟩)
    · exact hparameters p hp set hset
    · exact hvars v hv set hset
    · exact (hconstraints c hc).2 set hset
    · exact (hobjective o ho).2 set hset
  · intro h
    refine ⟨h.sets, fun p hp set hset => ?_, fun v hv set hset => ?_, fun c hc => ?_,
      fun o ho => ?_⟩
    · exact h.references set (.inl ⟨p, hp, hset⟩)
    · exact h.references set (.inr (.inl ⟨v, hv, hset⟩))
    · exact ⟨h.constraints c hc,
        fun set hset => h.references set (.inr (.inr (.inl ⟨c, hc, hset⟩)))⟩
    · exact ⟨h.objective o ho,
        fun set hset => h.references set (.inr (.inr (.inr ⟨o, ho, hset⟩)))⟩

end ModelData

namespace Model

/-- What building a model keeps of the declarations it is given. It succeeds exactly when the lists
are admissible; the model then passes its check and holds the lists with repeated names merged,
hence the lists themselves exactly when no name is repeated. -/
theorem ofData_keeps (d : ModelData) :
    ((∃ m, ofData d = .ok m) ↔ d.Admissible) ∧
      ∀ m, ofData d = .ok m →
        m.check = .ok () ∧ m.toData = d.merged ∧ (m.toData = d ↔ d.Distinct) := by
  rw [← ModelData.check_eq_ok, ofData_eq]
  constructor
  · simp only [map_eq_ok]
    exact ⟨fun ⟨_, _, hcheck, _⟩ => hcheck, fun hcheck => ⟨_, (), hcheck, rfl⟩⟩
  · intro m hm
    obtain ⟨_, hcheck, rfl⟩ := map_eq_ok.mp hm
    rw [d.toData_registered]
    exact ⟨check_registered hcheck, rfl, ModelData.merged_eq_self⟩

def redrafted : ModelData where
  name := "draft"
  sets := [⟨"I", [.int 1]⟩, ⟨"J", [.str "a"]⟩, ⟨"I", [.int 2, .int 3]⟩]
  parameters := [.ofScalar "p" (.int 1), .ofScalar "p" (.int 2)]
  vars := [{ name := "x", indices := ["J"] }, { name := "y" }, { name := "x", indices := ["I"] }]
  constraints :=
    [.forAll "cap" (.plain (.ref .variable "y") .le (.int 4)) [],
      .forAll "cap" (.plain (.ref .variable "y") .le (.ref .parameter "p")) []]

theorem ofData_keeps_redrafted :
    ofData redrafted = .ok redrafted.registered ∧ redrafted.Admissible ∧
      redrafted.registered.check = .ok () ∧
      redrafted.registered.toData = redrafted.merged ∧
      redrafted.merged.sets = [⟨"I", [.int 2, .int 3]⟩, ⟨"J", [.str "a"]⟩] ∧
      redrafted.merged.parameters = [.ofScalar "p" (.int 2)] ∧
      redrafted.merged.vars = [{ name := "x", indices := ["I"] }, { name := "y" }] ∧
      redrafted.registered.toData ≠ redrafted := by
  obtain ⟨hadmissible, hkeeps⟩ := ofData_keeps redrafted
  have hbuilt : ofData redrafted = .ok redrafted.registered := rfl
  obtain ⟨hcheck, hmerged, hsame⟩ := hkeeps _ hbuilt
  refine ⟨hbuilt, hadmissible.mp ⟨_, hbuilt⟩, hcheck, hmerged, rfl, rfl, rfl, fun heq => ?_⟩
  have hdistinct := (hsame.mp heq).parameters
  exact absurd hdistinct (by decide)

end Model

end Milp
