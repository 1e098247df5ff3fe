import Milp.Proofs.Compilation.Rows
import Milp.Proofs.Evaluation.Failures

/-! Declarations to an empty target. Names are unique in a well-formed model, so nothing is refused
and the target ends up with the registries of the model, each variable as a family over the
elements of its sets. -/
namespace Milp

namespace CompiledModel

/-- Calls that insert entries of new and distinct names into one registry append them in order. -/
theorem deliver_insertions {α : Type} [Named α] (put : Registry α → CompiledModel) {xs : List α}
    {cs : List (Call Member)}
    (hcalls : List.Forall₂ (fun x c => ∀ r, Named.name x ∉ r.names →
      (put r).receive c = .ok (put (r.insert x))) xs cs)
    {r : Registry α} (hfresh : (r.names ++ xs.map Named.name).Nodup) :
    target.deliver cs (put r) = ⟨cs, put ⟨r.items ++ xs⟩, none⟩ := by
  induction hcalls generalizing r with
  | nil => simp [Target.deliver]
  | @cons x c xs cs hc _ ih =>
    rw [List.map_cons] at hfresh
    have hnew : Named.name x ∉ r.names := by
      intro hmem
      exact (List.nodup_append.mp hfresh).2.2 _ hmem _ List.mem_cons_self rfl
    have hinsert : r.insert x = ⟨r.items ++ [x]⟩ := by
      rw [Registry.insert, Registry.place_of_fresh hnew]
    have hreceive := hc r hnew
    rw [hinsert] at hreceive
    rw [deliver_cons_of_ok hreceive, ih]
    · simp
    · simpa [Registry.names] using hfresh

/-- A family of a new name is accepted. -/
theorem receive_family {s : CompiledModel} {v : Variable} {sets : List IndexSet}
    (hnew : v.name ∉ s.families.names) :
    s.receive (.declareFamily v sets) =
      .ok { s with families := s.families.insert ⟨v, sets.map IndexSet.elements⟩ } := by
  have hcontains : s.families.contains v.name = false := by
    rw [Registry.contains, Registry.get?_eq_none.mpr hnew]
    rfl
  rw [receive, if_neg (by simp [hcontains])]

end CompiledModel

namespace Model

variable {V : Type}

def elementsOf (m : Model) (name : String) : List Element :=
  ((m.sets.get? name).map IndexSet.elements).getD []

def family (m : Model) (v : Variable) : Family := ⟨v, v.indices.map m.elementsOf⟩

/-- The compiled model that holds the declarations of a model and nothing else. -/
def declared (m : Model) : CompiledModel where
  sets := m.sets
  parameters := m.parameters
  families := ⟨m.vars.items.map m.family⟩

/-- The handles of a freshly declared target belong to the variables of the model. -/
theorem member?_declared (m : Model) (name : String) (index : Tuple) :
    m.declared.member? name index =
      (m.vars.get? name).bind fun v => (m.family v).member? index := by
  rw [CompiledModel.member?, declared, Registry.get?_map m.family (fun _ => rfl)]
  cases m.vars.get? name <;> rfl

def Grounded (m : Model) (v : Variable) : Prop :=
  ∀ name ∈ v.indices, ∃ s, m.sets.get? name = some s

private theorem map_elementsOf {m : Model} {names : List String} {sets : List IndexSet}
    (h : List.Forall₂ (fun name s => m.findSet name = .ok s) names sets) :
    names.map m.elementsOf = sets.map IndexSet.elements := by
  induction h with
  | nil => rfl
  | cons hs _ ih =>
    rw [List.map_cons, List.map_cons, ih, elementsOf, findSet_eq_ok.mp hs]
    rfl

theorem family_of_familyCall {m : Model} {v : Variable} {c : Call V}
    (h : m.familyCall v = .ok c) :
    ∃ sets, c = .declareFamily v sets ∧ m.family v = ⟨v, sets.map IndexSet.elements⟩ := by
  obtain ⟨sets, hsets, rfl⟩ := map_eq_ok.mp h
  exact ⟨sets, rfl, by rw [family, map_elementsOf (mapM_eq_ok.mp hsets)]⟩

theorem familyCall_isOk {m : Model} {v : Variable} :
    (∃ c : Call V, m.familyCall v = .ok c) ↔ m.Grounded v := by
  have hsets : (∃ sets, v.indices.mapM m.findSet = .ok sets) ↔ m.Grounded v := by
    simp only [mapM_isOk, findSet_eq_ok, Grounded]
  rw [← hsets]
  constructor
  · rintro ⟨_, hc⟩
    obtain ⟨sets, hsets, _⟩ := map_eq_ok.mp hc
    exact ⟨sets, hsets⟩
  · rintro ⟨sets, hsets⟩
    exact ⟨_, map_eq_ok.mpr ⟨sets, hsets, rfl⟩⟩

/-- The declarations of a well-formed model are accepted by an empty target. When the index sets of
all variables exist, the target then holds the registries of the model. -/
theorem WellFormed.declare_fresh {m : Model} (hm : m.WellFormed) :
    (m.declare CompiledModel.target {}).refusal = none ∧
      ((m.declarations (V := Member)).2 = none →
        (m.declare CompiledModel.target {}).state = m.declared) := by
  -- The families that are declared belong to a first part of the variables.
  obtain ⟨done, rest, hvars, hdone, hrest⟩ :=
    collect_split (m.familyCall (V := Member)) m.vars.items
  have hsets : CompiledModel.target.deliver (m.sets.items.map Call.declareSet) {} =
      ⟨m.sets.items.map Call.declareSet, { sets := m.sets }, none⟩ := by
    refine CompiledModel.deliver_insertions (fun r => { sets := r }) ?_ (r := .empty) hm.sets
    exact List.forall₂_map_right_iff.mpr (List.forall₂_same.mpr fun _ _ _ _ => rfl)
  have hparameters : CompiledModel.target.deliver (m.parameters.items.map Call.declareParameter)
        { sets := m.sets } =
      ⟨m.parameters.items.map Call.declareParameter,
        { sets := m.sets, parameters := m.parameters }, none⟩ := by
    refine CompiledModel.deliver_insertions (fun r => { sets := m.sets, parameters := r }) ?_
      (r := .empty) hm.parameters
    exact List.forall₂_map_right_iff.mpr (List.forall₂_same.mpr fun _ _ _ _ => rfl)
  have hfamilies (cs : List (Call Member))
      (hcs : List.Forall₂ (fun v c => m.familyCall v = .ok c) done cs) :
      CompiledModel.target.deliver cs { sets := m.sets, parameters := m.parameters } =
        ⟨cs, { sets := m.sets, parameters := m.parameters, families := ⟨done.map m.family⟩ },
          none⟩ := by
    refine CompiledModel.deliver_insertions
      (fun r => { sets := m.sets, parameters := m.parameters, families := r }) ?_ (r := .empty) ?_
    · refine List.forall₂_map_left_iff.mpr (hcs.imp fun v c hc r hnew => ?_)
      obtain ⟨sets, rfl, hfamily⟩ := family_of_familyCall hc
      rw [hfamily]
      exact CompiledModel.receive_family hnew
    · have hnames := hm.vars
      rw [Registry.Unique, Registry.names, hvars, List.map_append] at hnames
      rw [List.map_map]
      exact (List.nodup_append.mp hnames).1
  have hdeliver : m.declare CompiledModel.target {} =
      ⟨(m.declarations (V := Member)).1,
        { sets := m.sets, parameters := m.parameters, families := ⟨done.map m.family⟩ },
        none⟩ := by
    rw [declare, declarations, Target.deliver_append, Target.deliver_append, hsets]
    simp only [hparameters, hfamilies _ hdone]
  rw [hdeliver]
  refine ⟨rfl, fun hnone => ?_⟩
  have hall : m.vars.items = done := by
    rw [hvars, hrest hnone, List.append_nil]
  rw [declared, hall]

end Model

end Milp
