import Milp.Proofs.Compilation.Protocol
import Milp.Proofs.Model.History

/-! Which references of a model can dangle. Every declaration was checked when it was added, so a
set that a declaration refers to is still declared unless it was removed since; the check of a model
can find nothing but such references. -/
namespace Milp

theorem IndexSet.homogeneous_of_check {s : IndexSet} (h : s.check = .ok ()) :
    (∀ x ∈ s.elements, x.isInt = true) ∨ (∀ x ∈ s.elements, x.isInt = false) := by
  have hmixed := (check_eq_ok.mp h).1
  rw [isMixed, Bool.and_eq_false_iff] at hmixed
  rcases hmixed with hint | hstr
  · right
    intro x hx
    simpa using List.any_eq_false.mp hint x hx
  · left
    intro x hx
    simpa using List.any_eq_false.mp hstr x hx

namespace Model

def ofEdits (name : String) (es : List Edit) : Model := es.foldl Model.edit { name }

theorem ofEdits_append_singleton (name : String) (es : List Edit) (e : Edit) :
    ofEdits name (es ++ [e]) = (ofEdits name es).edit e := by
  rw [ofEdits, List.foldl_append]
  rfl

theorem reachable_ofEdits (name : String) (es : List Edit) : (ofEdits name es).Reachable :=
  (Reachable.new name).edits es

theorem Reachable.exists_history {m : Model} (h : m.Reachable) : ∃ name es, m = ofEdits name es := by
  induction h with
  | new name => exact ⟨name, [], rfl⟩
  | @edit m e _ ih =>
    obtain ⟨name, es, rfl⟩ := ih
    exact ⟨name, es ++ [e], (ofEdits_append_singleton name es e).symm⟩

/-- Whether a history removes a set that is declared at that point. -/
def Removed (name : String) (es : List Edit) (set : String) : Prop :=
  ∃ before after, es = before ++ .removeSet set :: after ∧ set ∈ (ofEdits name before).sets.names

theorem Removed.append {name : String} {es : List Edit} {set : String} (h : Removed name es set)
    (e : Edit) : Removed name (es ++ [e]) set := by
  obtain ⟨before, after, rfl, hset⟩ := h
  exact ⟨before, after ++ [e], by simp, hset⟩

/-- Whether a set is declared or among those that are gone. -/
def Knows (m : Model) (gone : String → Prop) (set : String) : Prop :=
  set ∈ m.sets.names ∨ gone set

/-- Whether all declarations pass their own checks and refer to sets that are declared or gone. -/
structure Sound (m : Model) (gone : String → Prop) : Prop where
  parameters : ∀ p ∈ m.parameters.items, ∀ set ∈ p.indices, m.Knows gone set
  vars : ∀ v ∈ m.vars.items, ∀ set ∈ v.indices, m.Knows gone set
  constraints : ∀ c ∈ m.constraints.items,
    c.check = .ok () ∧ ∀ set ∈ c.setNames, m.Knows gone set
  objective : ∀ o, m.objective = some o →
    o.expr.check = .ok () ∧ ∀ set ∈ o.expr.setNames, m.Knows gone set

theorem Sound.new (name : String) (gone : String → Prop) : Sound { name } gone :=
  ⟨nofun, nofun, nofun, nofun⟩

/-- Soundness only depends on which sets are known. -/
theorem Sound.mono {m m' : Model} {gone gone' : String → Prop} (h : m.Sound gone)
    (hknows : ∀ set, m.Knows gone set → m'.Knows gone' set)
    (hparameters : m'.parameters = m.parameters) (hvars : m'.vars = m.vars)
    (hconstraints : m'.constraints = m.constraints) (hobjective : m'.objective = m.objective) :
    m'.Sound gone' := by
  constructor
  · rw [hparameters]
    exact fun p hp set hset => hknows set (h.parameters p hp set hset)
  · rw [hvars]
    exact fun v hv set hset => hknows set (h.vars v hv set hset)
  · rw [hconstraints]
    intro c hc
    obtain ⟨hcheck, hsets⟩ := h.constraints c hc
    exact ⟨hcheck, fun set hset => hknows set (hsets set hset)⟩
  · rw [hobjective]
    intro o ho
    obtain ⟨hcheck, hsets⟩ := h.objective o ho
    exact ⟨hcheck, fun set hset => hknows set (hsets set hset)⟩

theorem findSet_isOk {m : Model} {set : String} :
    (∃ s, m.findSet set = .ok s) ↔ set ∈ m.sets.names := by
  simp only [findSet_eq_ok]
  rw [← Option.isSome_iff_exists, Option.isSome_iff_ne_none, ne_eq, Registry.get?_eq_none,
    not_not]

theorem checkNames_eq_ok {m : Model} {names : List String} (h : m.checkNames names = .ok ()) :
    ∀ set ∈ names, set ∈ m.sets.names := by
  intro set hset
  obtain ⟨s, hs, _⟩ := map_eq_ok.mp (forM_eq_ok.mp h set hset)
  exact findSet_isOk.mp ⟨s, hs⟩

/-- An edit that removes no set keeps a model sound. -/
theorem Sound.edit {m : Model} {gone : String → Prop} {e : Edit} (h : m.Sound gone)
    (hremoves : ∀ set, e ≠ .removeSet set) : (m.edit e).Sound gone := by
  cases e with
  | addSet s =>
    refine attempt_keeps (p := fun m' => m'.Sound gone) h fun _ => ?_
    refine h.mono (fun set hset => ?_) rfl rfl rfl rfl
    exact hset.imp_left fun hmem => Registry.mem_names_insert.mpr (.inr hmem)
  | addParameter p =>
    refine attempt_keeps (p := fun m' => m'.Sound gone) h fun hcheck => ?_
    refine { h with parameters := fun q hq => ?_ }
    rcases Registry.mem_insert hq with rfl | hq
    · exact fun set hset => .inl (checkNames_eq_ok hcheck set hset)
    · exact h.parameters q hq
  | addVariable v =>
    refine attempt_keeps (p := fun m' => m'.Sound gone) h fun hcheck => ?_
    refine { h with vars := fun w hw => ?_ }
    rcases Registry.mem_insert hw with rfl | hw
    · exact fun set hset => .inl (checkNames_eq_ok hcheck set hset)
    · exact h.vars w hw
  | addConstraint c =>
    refine attempt_keeps (p := fun m' => m'.Sound gone) h fun hcheck => ?_
    obtain ⟨_, hself, hnames⟩ := bind_eq_ok.mp hcheck
    refine { h with constraints := fun d hd => ?_ }
    rcases Registry.mem_insert hd with rfl | hd
    · exact ⟨hself, fun set hset => .inl (checkNames_eq_ok hnames set hset)⟩
    · exact h.constraints d hd
  | setObjective o =>
    refine attempt_keeps (p := fun m' => m'.Sound gone) h fun hcheck => ?_
    obtain ⟨_, hself, hnames⟩ := bind_eq_ok.mp hcheck
    refine { h with objective := fun p hp => ?_ }
    cases hp
    exact ⟨hself, fun set hset => .inl (checkNames_eq_ok hnames set hset)⟩
  | removeSet name => exact absurd rfl (hremoves name)
  | removeParameter name =>
    exact { h with parameters := fun q hq => h.parameters q (Registry.mem_of_mem_erase hq) }
  | removeVariable name =>
    exact { h with vars := fun v hv => h.vars v (Registry.mem_of_mem_erase hv) }
  | removeConstraint name =>
    exact { h with constraints := fun c hc => h.constraints c (Registry.mem_of_mem_erase hc) }
  | removeObjective => exact { h with objective := nofun }

/-- Removing a set adds it to those that are gone, if it was declared. -/
theorem Sound.removeSet {m : Model} {gone gone' : String → Prop} {name : String}
    (h : m.Sound gone) (hgone : ∀ set, gone set → gone' set)
    (hname : name ∈ m.sets.names → gone' name) : (m.removeSet name).Sound gone' := by
  refine h.mono (fun set hset => ?_) rfl rfl rfl rfl
  rcases hset with hset | hset
  · rcases Registry.mem_names_erase hset name with rfl | herase
    · exact .inr (hname hset)
    · exact .inl herase
  · exact .inr (hgone set hset)

/-- After any history, what declarations refer to is declared or was removed. -/
theorem sound_ofEdits (name : String) (es : List Edit) :
    (ofEdits name es).Sound (Removed name es) := by
  induction es using List.reverseRecOn with
  | nil => exact .new name _
  | append_singleton es e ih =>
    have hgone (set : String) (hset : Removed name es set) : Removed name (es ++ [e]) set :=
      hset.append e
    rw [ofEdits_append_singleton]
    by_cases hremoves : ∃ set, e = .removeSet set
    · obtain ⟨set, rfl⟩ := hremoves
      exact ih.removeSet hgone fun hset => ⟨es, [], rfl, hset⟩
    · have hsound := ih.edit fun set he => hremoves ⟨set, he⟩
      exact hsound.mono (fun set hset => hset.imp_right (hgone set)) rfl rfl rfl rfl

def Dangling (m : Model) (gone : String → Prop) (e : Error) : Prop :=
  ∃ set, e = .unknownSet set ∧ gone set ∧ m.sets.get? set = none

theorem checkNames_failsOnly {m : Model} {gone : String → Prop} {names : List String}
    (h : ∀ set ∈ names, m.Knows gone set) :
    FailsOnly (m.Dangling gone) (m.checkNames names) := by
  refine FailsOnly.forM fun set hset => FailsOnly.map ?_ _
  rw [findSet]
  cases hget : m.sets.get? set with
  | some s => exact .ok _
  | none =>
    refine .error ⟨set, rfl, ?_, hget⟩
    exact (h set hset).resolve_left (Registry.get?_eq_none.mp hget)

/-- The check of a sound model with checked sets finds dangling references only. -/
theorem Sound.check_failsOnly {m : Model} {gone : String → Prop} (h : m.Sound gone)
    (hsets : ∀ s ∈ m.sets.items, s.check = .ok ()) : FailsOnly (m.Dangling gone) m.check := by
  have hconstraint : ∀ c ∈ m.constraints.items,
      FailsOnly (m.Dangling gone) (m.checkConstraint c) := by
    intro c hc
    obtain ⟨hself, hnames⟩ := h.constraints c hc
    rw [checkConstraint, hself, ok_bind]
    exact checkNames_failsOnly hnames
  have hobjective : ∀ o ∈ m.objective.toList, FailsOnly (m.Dangling gone) (m.checkObjective o) := by
    intro o ho
    obtain ⟨hself, hnames⟩ := h.objective o (Option.mem_toList.mp ho)
    rw [checkObjective, hself, ok_bind]
    exact checkNames_failsOnly hnames
  rw [check]
  refine FailsOnly.bind (FailsOnly.forM fun s hs => ?_) fun _ => ?_
  · rw [hsets s hs]
    exact .ok _
  refine FailsOnly.bind (FailsOnly.forM fun p hp => ?_) fun _ => ?_
  · exact checkNames_failsOnly (h.parameters p hp)
  refine FailsOnly.bind (FailsOnly.forM fun v hv => ?_) fun _ => ?_
  · exact checkNames_failsOnly (h.vars v hv)
  exact FailsOnly.bind (FailsOnly.forM hconstraint) fun _ => FailsOnly.forM hobjective

theorem check_ofEdits_failsOnly (name : String) (es : List Edit) :
    FailsOnly ((ofEdits name es).Dangling (Removed name es)) (ofEdits name es).check :=
  (sound_ofEdits name es).check_failsOnly (reachable_ofEdits name es).wellFormed.elements

theorem not_removed {name set : String} {es : List Edit} (h : ∀ set, Edit.removeSet set ∉ es) :
    ¬ Removed name es set := by
  rintro ⟨before, after, rfl, _⟩
  exact h set (List.mem_append_right _ List.mem_cons_self)

theorem check_of_no_removal (name : String) {es : List Edit}
    (h : ∀ set, Edit.removeSet set ∉ es) : (ofEdits name es).check = .ok () := by
  cases hcheck : (ofEdits name es).check with
  | ok _ => rfl
  | error e =>
    obtain ⟨set, _, hremoved, _⟩ := check_ofEdits_failsOnly name es e hcheck
    exact absurd hremoved (not_removed h)

/-- On a model that passes its check, the two modes compile alike. -/
theorem compile_modes {σ V : Type} {m : Model} (h : m.check = .ok ()) (t : Target σ V)
    (config : Config) (s : σ) :
    (m.compile t (config.withMode .fast) s).result =
        (m.compile t (config.withMode .checked) s).result ∧
      (m.compile t (config.withMode .fast) s).state =
        (m.compile t (config.withMode .checked) s).state := by
  have hready : m.ready (config.withMode .fast).mode = m.ready (config.withMode .checked).mode := by
    rw [ready, ready, h]
    rfl
  have hplan : m.plan t (config.withMode .fast) s = m.plan t (config.withMode .checked) s := by
    rw [plan, plan, hready]
    rfl
  have hdue : m.due t (config.withMode .fast) s = m.due t (config.withMode .checked) s := by
    rw [due, due, hready, hplan]
  obtain ⟨hstate, hresult⟩ := m.compile_due t (config.withMode .fast) s
  obtain ⟨hstate', hresult'⟩ := m.compile_due t (config.withMode .checked) s
  rw [hstate, hresult, hstate', hresult', hdue, hplan]
  exact ⟨rfl, rfl⟩

/-- What holds after any history of edits, refused ones included. While no set is removed, the model
passes its check, so that checked compilations are fast ones. After removals, the check can only
find a reference to a set that was removed and is not declared. Sets stay of one kind and without
repetition, names stay unique, and a refused edit changes nothing. -/
theorem ofEdits_invariant (name : String) (es : List Edit) :
    ((∀ set, Edit.removeSet set ∉ es) →
      (ofEdits name es).check = .ok () ∧
      ∀ (σ V : Type) (t : Target σ V) (config : Config) (s : σ),
        ((ofEdits name es).compile t (config.withMode .fast) s).result =
            ((ofEdits name es).compile t (config.withMode .checked) s).result ∧
          ((ofEdits name es).compile t (config.withMode .fast) s).state =
            ((ofEdits name es).compile t (config.withMode .checked) s).state) ∧
    (∀ e, (ofEdits name es).check = .error e →
      ∃ set, e = .unknownSet set ∧ Removed name es set ∧
        (ofEdits name es).sets.get? set = none) ∧
    (∀ s ∈ (ofEdits name es).sets.items, s.elements.Nodup ∧
      ((∀ x ∈ s.elements, x.isInt = true) ∨ ∀ x ∈ s.elements, x.isInt = false)) ∧
    ((ofEdits name es).sets.Unique ∧ (ofEdits name es).parameters.Unique ∧
      (ofEdits name es).vars.Unique ∧ (ofEdits name es).constraints.Unique) ∧
    ∀ e err, ((ofEdits name es).apply e).1 = .error err →
      ((ofEdits name es).apply e).2 = ofEdits name es ∧
        ofEdits name (es ++ [e]) = ofEdits name es := by
  have hwf := (reachable_ofEdits name es).wellFormed
  refine ⟨fun h => ?_, check_ofEdits_failsOnly name es, fun s hs => ?_, ?_, ?_⟩
  · have hcheck := check_of_no_removal name h
    exact ⟨hcheck, fun σ V t config s => compile_modes hcheck t config s⟩
  · have hcheck := hwf.elements s hs
    exact ⟨(IndexSet.check_eq_ok.mp hcheck).2, IndexSet.homogeneous_of_check hcheck⟩
  · exact ⟨hwf.sets, hwf.parameters, hwf.vars, hwf.constraints⟩
  · intro e err h
    rw [ofEdits_append_singleton]
    exact ⟨edit_of_refused h, edit_of_refused h⟩

end Model

end Milp
