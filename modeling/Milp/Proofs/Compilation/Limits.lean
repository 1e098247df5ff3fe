import Milp.Proofs.Compilation.Plan
import Milp.Proofs.Evaluation.Limits
import Milp.Proofs.Model.Validity
import Milp.StoredModel

/-! Limits only guard. A compilation that ends in anything but an exceeded limit takes the same
course under looser limits: it makes the same calls, reports the same and fails in the same way. -/
namespace Milp

variable {σ V : Type}

/-- What `collect` finds is the same for functions that are alike up to a kind of failure, unless it
is such a failure. -/
theorem collect_alike {α β ε : Type} {p : ε → Prop} {f g : α → Except ε β} {as : List α}
    (h : ∀ a, AlikeUnless p (f a) (g a)) (hfailure : ∀ e, (collect f as).2 = some e → ¬ p e) :
    collect g as = collect f as := by
  induction as with
  | nil => rfl
  | cons a as ih =>
    rw [collect] at hfailure
    rw [collect, collect]
    cases ha : f a with
    | error e =>
      have hown : g a = .error e := by
        rw [(h a).eq_of_failsOnly, ha]
        rintro e' he'
        refine hfailure e' ?_
        rw [he']
      rw [hown]
    | ok b =>
      have hown : g a = .ok b := by
        have hfa := h a
        rw [ha] at hfa
        exact hfa.eq_ok
      rw [ha] at hfailure
      rw [hown, ih hfailure]

namespace Model

/-- A compilation that does not fail over a limit has the same outcome under looser limits: result,
report or failure, state of the target and events. Nothing is assumed of the model or the target,
which may report limits of its own. -/
theorem compile_relaxed (m : Model) (t : Target σ V) {config config' : Config}
    (hmode : config'.mode = config.mode) (hlimits : config'.limits.Relaxes config.limits) (s : σ)
    (h : ∀ name size limit,
      (m.compile t config s).result ≠ .error (.limitExceeded name size limit)) :
    m.compile t config' s = m.compile t config s := by
  have hresult : FailsOnly (fun e => ¬ e.OverLimit) (m.compile t config s).result := by
    rintro e he ⟨name, size, limit, rfl⟩
    exact h name size limit he
  cases hready : m.ready config.mode with
  | error e => rw [compile_of_unready hready, compile_of_unready (hmode ▸ hready)]
  | ok o =>
    rw [compile_ready hready] at hresult ⊢
    rw [compile_ready (hmode ▸ hready), hmode]
    cases hdeclare : m.declareFailure t s with
    | some e => rfl
    | none =>
      simp only [hdeclare] at hresult ⊢
      -- The declared target is the same, so that both settings differ in their limits only.
      have hagrees : (m.setting t config.limits (m.declare t s).state).AgreesUnless Error.OverLimit
          (m.setting t config'.limits (m.declare t s).state) := hlimits.agrees
      generalize m.setting t config.limits (m.declare t s).state = st at *
      generalize m.setting t config'.limits (m.declare t s).state = st' at *
      have hexpansions : m.expansions st' = m.expansions st := by
        refine collect_alike (fun c => (c.expand_alike hagrees).map _) fun e he => ?_
        change (m.expansions st).2 = some e at he
        rw [he] at hresult
        exact hresult e rfl
      rw [hexpansions]
      cases hfailure : (m.expansions st).2 with
      | some e => rfl
      | none =>
        have hvalue : o.expr.eval st' .root = o.expr.eval st .root := by
          refine (o.expr.eval_alike hagrees .root).eq_of_failsOnly fun e he => ?_
          rw [hfailure, he] at hresult
          exact hresult e rfl
        rw [hvalue]

def paired (divisor : Int64) : Model := .ofEdits "paired" [
  .addSet ⟨"I", [.int 1, .int 2, .int 3]⟩,
  .addParameter (.ofScalar "share" (.int divisor)),
  .addVariable { name := "x", indices := ["I"] },
  .addConstraint (.forAll "pairs" (.plain (.var "x" [.indexVar "i"]) .le
    (.sum (.sum (.int 1) [⟨"k", "I"⟩] (some (.index (.indexVar "k") .lt (.indexVar "j"))))
      [⟨"j", "I"⟩] (some (.index (.indexVar "j") .lt (.indexVar "i"))))) [⟨"i", "I", none⟩]),
  .setObjective ⟨"total", .sum (.var "x" [.indexVar "i"] * (.int 1 / .param "share" []))
    [⟨"i", "I"⟩], .max⟩]

def tight : Config := { limits := { instances := some 3, terms := some 3 } }

def loose : Config := { limits := { instances := some 9 } }

theorem loose_relaxes_tight : loose.limits.Relaxes tight.limits where
  instances := by
    rintro _ ⟨⟩
    exact ⟨3, rfl, by decide⟩
  terms := nofun

theorem compile_relaxed_paired :
    loose.mode = tight.mode ∧ loose.limits.Relaxes tight.limits ∧
    ((paired 2).compile StoredModel.target tight {}).result = .ok ⟨[⟨"pairs", 3, 0⟩], 1, 3⟩ ∧
    (paired 2).compile StoredModel.target loose {} =
      (paired 2).compile StoredModel.target tight {} ∧
    ((paired 0).compile StoredModel.target tight {}).result =
      .error (.divisionByZero [("i", .int 1)]) ∧
    (paired 0).compile StoredModel.target loose {} =
      (paired 0).compile StoredModel.target tight {} := by
  have hok : ((paired 2).compile StoredModel.target tight {}).result =
      .ok ⟨[⟨"pairs", 3, 0⟩], 1, 3⟩ := rfl
  have hfails : ((paired 0).compile StoredModel.target tight {}).result =
      .error (.divisionByZero [("i", .int 1)]) := rfl
  have hmode : loose.mode = tight.mode := rfl
  refine ⟨hmode, loose_relaxes_tight, hok, ?_, hfails, ?_⟩
  · refine compile_relaxed (paired 2) StoredModel.target hmode loose_relaxes_tight {} ?_
    rw [hok]
    nofun
  · refine compile_relaxed (paired 0) StoredModel.target hmode loose_relaxes_tight {} ?_
    rw [hfails]
    nofun

end Model

end Milp
