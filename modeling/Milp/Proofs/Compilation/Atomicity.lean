import Milp.Expr.Builder
import Milp.Proofs.Compilation.Protocol
import Milp.Proofs.Storage.History

/-! What a failed compilation leaves behind. Nothing is delivered before evaluation is complete, and
a goal is never set; but a target that holds the key of some row accepts the rows before it, and
these stay when that row is refused. -/
namespace Milp

/-- Whether a delivery of rows is cut off: the first one is free and a later one is taken. -/
def StoredModel.CutsOff (s : StoredModel) (rows : List Row) : Prop :=
  ∃ first rest, rows = first :: rest ∧ s.isFree first = true ∧ ∃ r ∈ rest, s.isFree r = false

private theorem StoredModel.cutsOff_iff {s : StoredModel} {rows : List Row} :
    s.CutsOff rows ↔ rows.takeWhile s.isFree ≠ [] ∧ ∃ r ∈ rows, s.isFree r = false := by
  cases rows with
  | nil =>
    constructor
    · rintro ⟨_, _, h, _⟩
      cases h
    · rintro ⟨h, _⟩
      exact absurd rfl h
  | cons first rest =>
    by_cases hfirst : s.isFree first = true
    · rw [List.takeWhile_cons_of_pos hfirst]
      constructor
      · rintro ⟨_, _, ⟨⟩, _, r, hr, htaken⟩
        exact ⟨List.cons_ne_nil _ _, r, List.mem_cons_of_mem _ hr, htaken⟩
      · rintro ⟨_, r, hr, htaken⟩
        refine ⟨first, rest, rfl, hfirst, r, ?_, htaken⟩
        rcases List.mem_cons.mp hr with rfl | hr
        · rw [hfirst] at htaken
          cases htaken
        · exact hr
    · rw [List.takeWhile_cons_of_neg hfirst]
      constructor
      · rintro ⟨_, _, ⟨⟩, hfree, _⟩
        exact absurd hfree hfirst
      · rintro ⟨h, _⟩
        exact absurd rfl h

/-- A compilation is a run of calls, so it keeps a stored model coherent. -/
theorem StoredModel.Coherent.compile {s : StoredModel} (h : s.Coherent) (m : Model)
    (config : Config) : (m.compile target config s).state.Coherent := by
  rw [(m.compile_due target config s).1, Target.state_deliver]
  exact h.after _

namespace Model

section

variable {m : Model} {config : Config} {s : CompiledModel} {p : Plan CompiledModel Member}

/-- Without a plan nothing but declarations reaches the target. -/
theorem compile_keeps_of_plan_error {e : Error}
    (h : m.plan CompiledModel.target config s = .error e) :
    (m.compile CompiledModel.target config s).state.rows = s.rows ∧
      (m.compile CompiledModel.target config s).state.goal = s.goal := by
  rcases (compile_of_plan_error h).2 with hstate | hstate
  · rw [hstate]
    exact ⟨rfl, rfl⟩
  · rw [hstate]
    exact m.declare_keeps s

/-- A compilation with a plan fails exactly when a planned row is taken. -/
theorem compile_error_iff_taken (hm : m.WellFormed)
    (h : m.plan CompiledModel.target config s = .ok p) :
    (∃ e, (m.compile CompiledModel.target config s).result = .error e) ↔
      ∃ r ∈ p.rows, s.isFree r = false := by
  constructor
  · rintro ⟨e, he⟩
    by_contra hnone
    have hfree : ∀ r ∈ p.rows, s.isFree r = true := by simpa using hnone
    rw [(compile_of_free hm h hfree).1] at he
    cases he
  · exact fun htaken => (compile_of_taken hm h htaken).1

/-- A compilation that is refused at a taken row keeps the goal and adds the rows before it. -/
theorem compile_taken_state (hm : m.WellFormed)
    (h : m.plan CompiledModel.target config s = .ok p)
    (htaken : ∃ r ∈ p.rows, s.isFree r = false) :
    (m.compile CompiledModel.target config s).state.goal = s.goal ∧
      (m.compile CompiledModel.target config s).state.rows =
        s.rows ++ p.rows.takeWhile s.isFree := by
  obtain ⟨_, hstate⟩ := compile_of_taken hm h htaken
  obtain ⟨_, _, hdeclared, _⟩ := plan_eq_ok.mp h
  rw [hstate]
  exact ⟨hdeclared ▸ (m.declare_keeps s).2, rfl⟩

/-- With a plan, a failed compilation keeps the rows unless planned rows are cut off. -/
theorem compile_keeps_iff_of_plan (hm : m.WellFormed)
    (h : m.plan CompiledModel.target config s = .ok p) :
    (∀ e, (m.compile CompiledModel.target config s).result = .error e →
      (m.compile CompiledModel.target config s).state.rows = s.rows ∧
      (m.compile CompiledModel.target config s).state.goal = s.goal) ↔
      ¬ s.stored.CutsOff p.rows := by
  have herror := compile_error_iff_taken hm h
  rw [StoredModel.cutsOff_iff, CompiledModel.isFree_stored]
  constructor
  · rintro hkeeps ⟨hne, htaken⟩
    obtain ⟨e, he⟩ := herror.mpr htaken
    obtain ⟨_, hrows⟩ := compile_taken_state hm h htaken
    rw [(hkeeps e he).1] at hrows
    exact hne (List.self_eq_append_right.mp hrows)
  · intro hcut e he
    have htaken := herror.mp ⟨e, he⟩
    obtain ⟨hgoal, hrows⟩ := compile_taken_state hm h htaken
    have hnil : p.rows.takeWhile s.isFree = [] := by
      by_contra hne
      exact hcut ⟨hne, htaken⟩
    rw [hrows, hnil, List.append_nil]
    exact ⟨rfl, hgoal⟩

end

/-- A failed compilation keeps the goal of its target, and its rows up to planned ones that were
accepted before a taken one. It keeps the rows themselves unless planned rows are cut off. The
target may be in any state that earlier calls and compilations lead to. -/
theorem compile_error_keeps_iff {m : Model} (hm : m.Reachable) (config : Config) {s : StoredModel}
    (hs : s.Coherent) :
    (∀ e, (m.compile StoredModel.target config s).result = .error e →
      (m.compile StoredModel.target config s).state.goal = s.goal ∧
      ((m.compile StoredModel.target config s).state.rows = s.rows ∨
        ∃ p, m.plan StoredModel.target config s = .ok p ∧
          (m.compile StoredModel.target config s).state.rows =
            s.rows ++ p.rows.takeWhile s.isFree)) ∧
    ((∀ e, (m.compile StoredModel.target config s).result = .error e →
      (m.compile StoredModel.target config s).state.rows = s.rows ∧
      (m.compile StoredModel.target config s).state.goal = s.goal) ↔
      ¬ ∃ p, m.plan StoredModel.target config s = .ok p ∧ s.CutsOff p.rows) := by
  have hwf := hm.wellFormed
  obtain ⟨c, rfl⟩ := StoredModel.coherent_iff.mp hs
  have hstored := CompiledModel.stored_refines.plan m config c
  simp only [CompiledModel.compile_stored, CompiledModel.rows_stored, CompiledModel.goal_stored]
  cases hplan : m.plan CompiledModel.target config c with
  | error e =>
    obtain ⟨hrows, hgoal⟩ := compile_keeps_of_plan_error hplan
    rw [hplan] at hstored
    refine ⟨fun _ _ => ⟨hgoal, .inl hrows⟩, iff_of_true (fun _ _ => ⟨hrows, hgoal⟩) ?_⟩
    rintro ⟨p, hp, _⟩
    rw [hstored] at hp
    cases hp
  | ok p =>
    rw [hplan] at hstored
    simp only [hstored, Except.map, Except.ok.injEq, exists_eq_left', CompiledModel.isFree_stored]
    refine ⟨fun e he => ?_, compile_keeps_iff_of_plan hwf hplan⟩
    have htaken := (compile_error_iff_taken hwf hplan).mp ⟨e, he⟩
    obtain ⟨hgoal, hrows⟩ := compile_taken_state hwf hplan htaken
    exact ⟨hgoal, .inr hrows⟩

def capped : Model :=
  [.addVariable { name := "x" },
    .addConstraint (.forAll "cap" (.plain (.ref .variable "x") .le (.int 4)) []),
    .setObjective { name := "cost", expr := .ref .variable "x" }].foldl edit { name := "plan" }

/-- The same model after edits: another variable, and a floor before the cap. -/
def floored : Model :=
  [.removeVariable "x", .removeConstraint "cap", .addVariable { name := "y" },
    .addConstraint (.forAll "floor" (.plain (.ref .variable "y") .ge (.int 1)) []),
    .addConstraint (.forAll "cap" (.plain (.ref .variable "y") .le (.int 9)) []),
    .setObjective { name := "cost", expr := .ref .variable "y" }].foldl edit capped

def cappedTarget : StoredModel := (capped.compile StoredModel.target {} {}).state

theorem capped_reachable : capped.Reachable := (Reachable.new "plan").edits _

theorem floored_reachable : floored.Reachable := capped_reachable.edits _

theorem cappedTarget_coherent : cappedTarget.Coherent :=
  StoredModel.coherent_empty.compile capped {}

theorem compile_error_keeps_iff_floored :
    floored.Reachable ∧ cappedTarget.Coherent ∧
    (∀ e, (floored.compile StoredModel.target {} cappedTarget).result = .error e →
      (floored.compile StoredModel.target {} cappedTarget).state.goal = cappedTarget.goal ∧
      ((floored.compile StoredModel.target {} cappedTarget).state.rows = cappedTarget.rows ∨
        ∃ p, floored.plan StoredModel.target {} cappedTarget = .ok p ∧
          (floored.compile StoredModel.target {} cappedTarget).state.rows =
            cappedTarget.rows ++ p.rows.takeWhile cappedTarget.isFree)) ∧
    ((∀ e, (floored.compile StoredModel.target {} cappedTarget).result = .error e →
      (floored.compile StoredModel.target {} cappedTarget).state.rows = cappedTarget.rows ∧
      (floored.compile StoredModel.target {} cappedTarget).state.goal = cappedTarget.goal) ↔
      ¬ ∃ p, floored.plan StoredModel.target {} cappedTarget = .ok p ∧
        cappedTarget.CutsOff p.rows) :=
  ⟨floored_reachable, cappedTarget_coherent,
    compile_error_keeps_iff floored_reachable {} cappedTarget_coherent⟩

/-- A failed compilation leaves a row behind: the floor is accepted before the cap is refused. -/
theorem compile_error_leaves_row :
    capped.Reachable ∧ floored.Reachable ∧ cappedTarget.Coherent ∧
    cappedTarget.rows.map Row.key = [("cap", [])] ∧
    (floored.compile StoredModel.target {} cappedTarget).result =
      .error (.target "constraint `cap` already has an instance at []") ∧
    (floored.compile StoredModel.target {} cappedTarget).state.rows.map Row.key =
      [("cap", []), ("floor", [])] :=
  ⟨capped_reachable, floored_reachable, cappedTarget_coherent, rfl, rfl, rfl⟩

end Model

end Milp
