import Milp.Proofs.Compilation.Plan

/-! Targets that stand for other targets. Where the states of one target represent those of another
one call by call, a whole compilation cannot tell the two apart: it ends alike, with the same
events, in states that correspond. -/
namespace Milp

variable {σ τ V : Type}

/-- Whether the states of one target represent those of another: each call has the same answer and
leads to states that correspond again, and the handles are the same. -/
structure Target.Refines (t' : Target τ V) (t : Target σ V) (rep : σ → τ) : Prop where
  receive : ∀ c s, t'.receive c (rep s) = ((t.receive c s).1, rep (t.receive c s).2)
  handle : ∀ s, t'.handle (rep s) = t.handle s

namespace Target.Refines

variable {t' : Target τ V} {t : Target σ V} {rep : σ → τ}

theorem deliver (h : t'.Refines t rep) (cs : List (Call V)) (s : σ) :
    t'.deliver cs (rep s) =
      ⟨(t.deliver cs s).made, rep (t.deliver cs s).state, (t.deliver cs s).refusal⟩ := by
  induction cs generalizing s with
  | nil => rfl
  | cons c cs ih =>
    rw [Target.deliver, Target.deliver, h.receive]
    cases t.receive c s with
    | mk answer s₁ =>
      cases answer with
      | error e => rfl
      | ok _ => simp only [ih s₁]

theorem setting (h : t'.Refines t rep) (m : Model) (limits : Limits) (s : σ) :
    m.setting t' limits (rep s) = m.setting t limits s := by
  rw [Model.setting, Model.setting, h.handle]

theorem declare (h : t'.Refines t rep) (m : Model) (s : σ) :
    m.declare t' (rep s) =
      ⟨(m.declare t s).made, rep (m.declare t s).state, (m.declare t s).refusal⟩ :=
  h.deliver m.declarations.1 s

theorem declareFailure (h : t'.Refines t rep) (m : Model) (s : σ) :
    m.declareFailure t' (rep s) = m.declareFailure t s := by
  rw [Model.declareFailure, h.declare, Model.declareFailure]

/-- Plans for a target and for one that stands for it differ in the declared state only. -/
theorem plan (h : t'.Refines t rep) (m : Model) (config : Config) (s : σ) :
    m.plan t' config (rep s) =
      (m.plan t config s).map fun p => ⟨p.objective, rep p.declared, p.constraints, p.value⟩ := by
  simp only [Model.plan, h.declareFailure, h.declare, h.setting]
  cases m.ready config.mode with
  | error e => rfl
  | ok o =>
    simp only [ok_bind]
    cases m.declareFailure t s with
    | some e => rfl
    | none =>
      simp only
      generalize m.setting t config.limits (m.declare t s).state = st
      cases m.constraints.items.mapM fun c => (c.expand st).map (Planned.mk c.name) with
      | error e => rfl
      | ok planned =>
        simp only [ok_bind]
        cases o.expr.eval st Scope.root <;> rfl

private theorem emit (h : t'.Refines t rep) (m : Model) (mode : CheckMode) (o : Objective)
    (planned : List (Planned V)) (value : Resolved V) (events : List Event) (s : σ) :
    m.emit t' mode o planned value events (rep s) =
      ⟨(m.emit t mode o planned value events s).result,
        rep (m.emit t mode o planned value events s).state,
        (m.emit t mode o planned value events s).events⟩ := by
  simp only [Model.emit, h.deliver]
  cases (t.deliver (Model.emissions planned o value) s).refusal <;> rfl

/-- Compilation into a target and into one that stands for it end alike. -/
theorem compile (h : t'.Refines t rep) (m : Model) (config : Config) (s : σ) :
    m.compile t' config (rep s) =
      ⟨(m.compile t config s).result, rep (m.compile t config s).state,
        (m.compile t config s).events⟩ := by
  rw [Model.compile, Model.compile]
  cases m.ready config.mode with
  | error e => rfl
  | ok o =>
    simp only [h.deliver, h.setting]
    cases (t.deliver m.declarations.1 s).refusal.or m.declarations.2 with
    | some e => rfl
    | none =>
      simp only
      generalize m.setting t config.limits (t.deliver m.declarations.1 s).state = st
      cases (m.expansions st).2 with
      | some e => rfl
      | none =>
        cases o.expr.eval st Scope.root with
        | error e => rfl
        | ok value => exact h.emit m config.mode o _ value _ _

end Target.Refines

end Milp
