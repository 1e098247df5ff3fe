import Milp.Proofs.Evaluation.Staging
import Milp.Proofs.Model.Validity

/-! Staging of compilations. A model only holds checked declarations, so a compilation never reports
a symbolic condition of its own, and reports an index position only where that is a float without
an integer value. -/
namespace Milp.Model

variable {σ V : Type}

def exprs (m : Model) : List Expr :=
  m.constraints.items.flatMap Constraint.exprs ++ m.objective.toList.map Objective.expr

def HasPosition (m : Model) (name : String) (p : Expr) : Prop :=
  ∃ e ∈ m.exprs, ∃ kind positions, Expr.Within (.refAt kind name positions) e ∧ p ∈ positions

theorem familyCall_failsPlainly (m : Model) (v : Variable) :
    FailsOnly Error.Plain (m.familyCall (V := V) v) := by
  refine FailsOnly.map (FailsOnly.mapM fun name _ => ?_) _
  rw [findSet]
  split
  · exact .ok _
  · exact .error trivial

theorem ready_failsPlainly {m : Model} (hm : m.Reachable) (mode : CheckMode) :
    FailsOnly Error.Plain (m.ready mode) := by
  have hcheck : FailsOnly Error.Plain m.check := by
    obtain ⟨name, es, rfl⟩ := hm.exists_history
    intro e he
    obtain ⟨set, rfl, _⟩ := check_ofEdits_failsOnly name es e he
    trivial
  rw [ready.eq_def]
  split
  · exact .error trivial
  · split
    · exact .ok _
    · exact hcheck.map _

/-- The constraints and the objective of a reachable model are checked. -/
theorem Reachable.checked {m : Model} (hm : m.Reachable) :
    (∀ c ∈ m.constraints.items, c.check = .ok ()) ∧
      ∀ o, m.objective = some o → o.expr.check = .ok () := by
  obtain ⟨name, es, rfl⟩ := hm.exists_history
  have hsound := sound_ofEdits name es
  exact ⟨fun c hc => (hsound.constraints c hc).1, fun o ho => (hsound.objective o ho).1⟩

section

variable {m : Model} {t : Target σ V} {p : Error → Prop}

theorem deliver_failsOnly (ht : ∀ c s, FailsOnly p (t.receive c s).1) {calls : List (Call V)}
    {s : σ} {e : Error} (h : (t.deliver calls s).refusal = some e) : p e := by
  obtain ⟨_, c, s₁, _, _, hc⟩ := Target.refused_of_deliver h
  exact ht c s₁ e (by rw [hc])

/-- Neither planning nor the calls of a compilation break staging when the target does not. -/
theorem compile_failsOnly (hm : m.Reachable)
    (ht : ∀ c s, FailsOnly (Error.Staged m.HasPosition) (t.receive c s).1) (config : Config)
    (s : σ) : FailsOnly (Error.Staged m.HasPosition) (m.compile t config s).result := by
  obtain ⟨hconstraints, hobjective⟩ := hm.checked
  have hplan : FailsOnly (Error.Staged m.HasPosition) (m.plan t config s) := by
    rw [plan]
    refine ((ready_failsPlainly hm config.mode).imp fun _ he => he.staged _).bind_of_ok ?_
    intro o hready
    obtain ⟨ho, _⟩ := ready_eq_ok.mp hready
    split
    case h_1 e hfailure =>
      refine .error ?_
      cases hrefusal : (m.declare t s).refusal with
      | some e' =>
        rw [declareFailure, hrefusal] at hfailure
        cases hfailure
        exact deliver_failsOnly ht hrefusal
      | none =>
        rw [declareFailure, hrefusal, Option.none_or] at hfailure
        obtain ⟨_, v, _, _, hv, _⟩ := collect_failure hfailure
        exact (m.familyCall_failsPlainly v e hv).staged _
    case h_2 =>
      refine FailsOnly.bind (FailsOnly.mapM fun c hc => FailsOnly.map ?_ _) fun planned => ?_
      · refine Constraint.expand_staged (hconstraints c hc) fun e he kind name positions h d hd => ?_
        refine ⟨e, List.mem_append_left _ ?_, kind, positions, h, hd⟩
        exact List.mem_flatMap.mpr ⟨c, hc, he⟩
      · refine (Expr.eval_staged (hobjective o ho) (fun kind name positions h d hd => ?_) _).bind
          fun value => .ok _
        refine ⟨o.expr, List.mem_append_right _ ?_, kind, positions, h, hd⟩
        exact List.mem_map.mpr ⟨o, Option.mem_toList.mpr ho, rfl⟩
  intro e he
  obtain ⟨_, hresult⟩ := m.compile_due t config s
  rw [hresult] at he
  cases hrefusal : (t.deliver (m.due t config s) s).refusal with
  | some e' =>
    rw [hrefusal] at he
    cases he
    exact deliver_failsOnly ht hrefusal
  | none =>
    rw [hrefusal] at he
    exact hplan.map _ e he

end

/-- A checked condition has the same truth value in all settings, and fails over index variables and
operands only. So a compilation of a reachable model into a target that does not itself report
conditions and index positions never reports a condition, and reports an index position only where
that is an index expression whose value is a float without an integer value. -/
theorem compile_staged :
    (∀ (c : Comparison Expr) (scope : Scope), c.checkIndex = .ok () →
      (∀ (V : Type) (st : Setting V),
        FailsOnly Error.OfScalars (Condition.eval st scope (some c))) ∧
      ∀ (V W : Type) (st : Setting V) (st' : Setting W),
        Condition.eval st scope (some c) = Condition.eval st' scope (some c)) ∧
    ∀ (σ V : Type) (m : Model) (t : Target σ V) (config : Config) (s : σ), m.Reachable →
      (∀ c s, FailsOnly (fun e => ¬ e.OfStaging) (t.receive c s).1) →
      (∀ condition snapshot,
        (m.compile t config s).result ≠ .error (.symbolicCondition condition snapshot)) ∧
      ∀ name detail snapshot,
        (m.compile t config s).result = .error (.invalidIndex name detail snapshot) →
        ∃ p scope x, m.HasPosition name p ∧ p.isIndexExpr = true ∧
          (∀ (W : Type) (st : Setting W), p.eval st scope = .ok (.host (.float x))) ∧
          Scalar.integral? x = none ∧
          detail = quoted p.text ++ " evaluated to float " ++ quoted (Scalar.float x).text ∧
          snapshot = scope.snapshot := by
  constructor
  · intro c scope h
    obtain ⟨r, hfails, hr⟩ := Condition.eval_index h scope
    constructor
    · intro V st
      rw [hr V st]
      exact hfails
    · intro V W st st'
      rw [hr V st, hr W st']
  · intro σ V m t config s hm ht
    have hstaged : FailsOnly (Error.Staged m.HasPosition) (m.compile t config s).result :=
      compile_failsOnly hm (fun c s => (ht c s).imp fun _ hnot hstaging => absurd hstaging hnot)
        config s
    constructor
    · intro condition snapshot h
      obtain ⟨_, _, _, _, _, _, _, _, herror⟩ := hstaged _ h trivial
      cases herror
    · intro name detail snapshot h
      obtain ⟨name', p, scope, x, hp, hindex, heval, hnone, herror⟩ := hstaged _ h trivial
      cases herror
      exact ⟨p, scope, x, hp, hindex, heval, hnone, rfl, rfl⟩

theorem target_failsOnly (c : Call Member) (s : CompiledModel) :
    FailsOnly (fun e => ¬ e.OfStaging) (CompiledModel.target.receive c s).1 := by
  intro e he
  cases hc : s.receive c with
  | error e' =>
    rw [CompiledModel.receive_of_error hc] at he
    cases he
    obtain ⟨message, rfl⟩ := CompiledModel.exists_message hc
    exact id
  | ok s' =>
    rw [CompiledModel.receive_of_ok hc] at he
    cases he

def halving : Model :=
  ofEdits "halving"
    [.addSet ⟨"I", [.int 1, .int 2]⟩, .addVariable { name := "x", indices := ["I"] },
      .addConstraint (.forAll "half"
        (.plain (.var "x" [.binary .div (.indexVar "i") (.int 2)]) .le (.int 1))
        [⟨"i", "I", some (.index (.indexVar "i") .lt (.int 3))⟩]),
      .setObjective ⟨"cost", .int 0, .min⟩]

theorem compile_halving : (halving.compile CompiledModel.target {} {}).result =
    .error (.invalidIndex "x" "`(i / 2)` evaluated to float `0.5`" [("i", .int 1)]) :=
  rfl

theorem compile_staged_halving :
    (∀ (V W : Type) (st : Setting V) (st' : Setting W),
      Condition.eval st [[("i", .int 1)]] (some (.index (.indexVar "i") .lt (.int 3))) =
        Condition.eval st' [[("i", .int 1)]] (some (.index (.indexVar "i") .lt (.int 3)))) ∧
    (halving.compile CompiledModel.target {} {}).result =
      .error (.invalidIndex "x" "`(i / 2)` evaluated to float `0.5`" [("i", .int 1)]) ∧
    ∃ p scope x, halving.HasPosition "x" p ∧ p.isIndexExpr = true ∧
      (∀ (W : Type) (st : Setting W), p.eval st scope = .ok (.host (.float x))) ∧
      Scalar.integral? x = none ∧
      "`(i / 2)` evaluated to float `0.5`" =
        quoted p.text ++ " evaluated to float " ++ quoted (Scalar.float x).text ∧
      [("i", .int 1)] = Scope.snapshot scope := by
  obtain ⟨hconditions, hcompile⟩ := compile_staged
  refine ⟨(hconditions _ _ rfl).2, compile_halving, ?_⟩
  exact (hcompile _ _ halving CompiledModel.target {} {} (reachable_ofEdits _ _)
    target_failsOnly).2 _ _ _ compile_halving

end Milp.Model
