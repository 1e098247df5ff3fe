import Milp.Model.Data
import Milp.Proofs.Expr.Induction

/-! Declarations without infinities and NaN. An expression is finite when every number in it is;
this is stated over its parts, and computed node by node. -/
namespace Milp

def Number.Finite (n : Number) : Prop := ∀ x, n = .float x → x.isFinite = true

namespace Expr

def Finite (e : Expr) : Prop := ∀ n, (Expr.number n).Within e → n.Finite

theorem finite_number {n : Number} : (number n).Finite ↔ n.Finite := by
  constructor
  · exact fun h => h n .refl
  · intro h m hm
    cases hm with
    | refl => exact h

theorem finite_string (s : String) : (string s).Finite := nofun

theorem finite_indexVar (name : String) : (indexVar name).Finite := nofun

theorem finite_ref (kind : RefKind) (name : String) : (ref kind name).Finite := nofun

theorem finite_refAt {kind : RefKind} {name : String} {positions : List Expr} :
    (refAt kind name positions).Finite ↔ ∀ e ∈ positions, e.Finite := by
  constructor
  · exact fun h e he n hn => h n (.position he hn)
  · intro h n hn
    cases hn with
    | position he hn => exact h _ he n hn

theorem finite_unary {op : UnaryOp} {e : Expr} : (unary op e).Finite ↔ e.Finite := by
  constructor
  · exact fun h n hn => h n (.operand hn)
  · intro h n hn
    cases hn with
    | operand hn => exact h n hn

theorem finite_binary {op : BinaryOp} {l r : Expr} :
    (binary op l r).Finite ↔ l.Finite ∧ r.Finite := by
  constructor
  · exact fun h => ⟨fun n hn => h n (.left hn), fun n hn => h n (.right hn)⟩
  · intro h n hn
    cases hn with
    | left hn => exact h.1 n hn
    | right hn => exact h.2 n hn

end Expr

def Comparison.Finite (c : Comparison Expr) : Prop := c.left.Finite ∧ c.right.Finite

theorem Expr.finite_aggregate {a : Aggregation Expr} :
    (aggregate a).Finite ↔ a.body.Finite ∧ ∀ c, a.condition = some c → c.Finite := by
  obtain ⟨op, body, ranges, condition⟩ := a
  constructor
  · refine fun h => ⟨fun n hn => h n (.body hn), ?_⟩
    rintro c rfl
    exact ⟨fun n hn => h n (.conditionLeft hn), fun n hn => h n (.conditionRight hn)⟩
  · intro h n hn
    cases hn with
    | body hn => exact h.1 n hn
    | conditionLeft hn => exact (h.2 _ rfl).1 n hn
    | conditionRight hn => exact (h.2 _ rfl).2 n hn

structure Constraint.Finite (c : Constraint) : Prop where
  body : c.body.Finite
  conditions : ∀ q ∈ c.quantifiers, ∀ d, q.condition = some d → d.Finite

def ParameterValues.Finite : ParameterValues → Prop
  | .scalar n => n.Finite
  | .listed entries => ∀ e ∈ entries, e.value.isFinite = true

structure Variable.Finite (v : Variable) : Prop where
  lower : ∀ x, v.lower = some x → x.isFinite = true
  upper : ∀ x, v.upper = some x → x.isFinite = true

def Parameter.Checked (p : Parameter) : Prop := Parameter.make p.name p.indices p.values = .ok p

namespace ModelData

structure Finite (d : ModelData) : Prop where
  parameters : ∀ p ∈ d.parameters, p.values.Finite
  vars : ∀ v ∈ d.vars, v.Finite
  constraints : ∀ c ∈ d.constraints, c.Finite
  objective : ∀ o, d.objective = some o → o.expr.Finite

def Checked (d : ModelData) : Prop := ∀ p ∈ d.parameters, p.Checked

end ModelData

end Milp
