import Milp.Proofs.Evaluation.Operators

/-! Handles in evaluated results. Operators and sums keep the handles of their operands in order, so
that all handles of a result come from references: each is one that the setting has for a declared
variable, at a tuple of the length that the declaration asks for. -/
namespace Milp

variable {V : Type}

theorem Symbolic.varsAll_eq_flatMap (ts : List (Symbolic V)) : varsAll ts = ts.flatMap vars := by
  induction ts with
  | nil => rfl
  | cons t ts ih => rw [varsAll, ih, List.flatMap_cons]

namespace Resolved

variable {scope : Scope}

def vars : Resolved V → List V
  | host _ => []
  | symbolic e => e.vars

theorem vars_of_lift {op : String} {v : Resolved V} {s : Symbolic V}
    (h : v.lift op scope = .ok s) : s.vars = v.vars := by
  rcases lift_cases h with rfl | ⟨n, rfl, rfl⟩
  · rfl
  · rfl

theorem vars_unary {op : UnaryOp} {v r : Resolved V} (h : v.unary op scope = .ok r) :
    r.vars = v.vars := by
  rcases unary_cases h with ⟨a, b, rfl, _, rfl⟩ | ⟨e, rfl, rfl⟩
  · rfl
  · by_cases hop : op = .negate
    · rw [if_pos hop]
      rfl
    · rw [if_neg hop]
      rfl

theorem vars_node (op : BinaryOp) (l r : Symbolic V) : (node op l r).vars = l.vars ++ r.vars := by
  cases op with
  | add => simp [node, Symbolic.vars, Symbolic.varsAll]
  | _ => rfl

theorem vars_binary {op : BinaryOp} {l r v : Resolved V} (h : binary op scope l r = .ok v) :
    v.vars = l.vars ++ r.vars := by
  rcases binary_cases h with ⟨a, b, c, rfl, rfl, _, rfl⟩ | ⟨_, x, y, hx, hy, rfl⟩
  · rfl
  · rw [vars, vars_node, vars_of_lift hx, vars_of_lift hy]

/-- A sum has the handles of its terms, in the order of the terms. -/
theorem vars_sum {vs : List (Resolved V)} {r : Resolved V} (h : sum scope vs = .ok r) :
    r.vars = vs.flatMap vars := by
  rcases sum_cases h with ⟨rfl, rfl⟩ | rfl | ⟨-, ss, total, rfl, -, rfl⟩ | ⟨-, -, es, hes, rfl⟩
  · rfl
  · simp
  · rw [List.flatMap_map, vars, eq_comm, List.flatMap_eq_nil_iff]
    exact fun s _ => rfl
  · rw [vars, Symbolic.vars, Symbolic.varsAll_eq_flatMap]
    clear h
    induction hes with
    | nil => rfl
    | cons he _ ih => rw [List.flatMap_cons, List.flatMap_cons, vars_of_lift he, ih]

end Resolved

/-- Whether a handle is one that a setting has for a declared variable, at a tuple with as many
components as the variable has index sets. -/
def Setting.Provides (st : Setting V) (v : V) : Prop :=
  ∃ name x index, st.vars.get? name = some x ∧ index.length = x.dimension ∧
    st.handle name index = some v

theorem Setting.provides_of_lookup {st : Setting V} {kind : RefKind} {name : String} {index : Tuple}
    {scope : Scope} {r : Resolved V}
    (harity : st.checkArity kind name index.length scope = .ok ())
    (h : st.lookup kind name index scope = .ok r) : ∀ v ∈ r.vars, st.Provides v := by
  intro v hv
  rcases lookup_cases h with ⟨rfl, w, hw, rfl⟩ | ⟨_, n, _, rfl⟩
  · obtain ⟨x, hx, hdimension⟩ := exists_of_checkArity harity
    cases List.mem_singleton.mp hv
    exact ⟨name, x, index, hx, hdimension.symm, hw⟩
  · cases hv

/-- Every handle of a result is one that the setting provides. -/
theorem Expr.provides_of_eval {st : Setting V} {e : Expr} {scope : Scope} {r : Resolved V}
    (h : e.eval st scope = .ok r) : ∀ v ∈ r.vars, st.Provides v := by
  refine e.result_induction (fun s => nofun) Setting.provides_of_lookup ?_ ?_ ?_ h
  · intro op scope v r h hv
    rwa [Resolved.vars_unary h]
  · intro op scope l r v h hl hr
    rw [Resolved.vars_binary h]
    exact List.forall_mem_append.mpr ⟨hl, hr⟩
  · intro scope vs r h hvs
    rw [Resolved.vars_sum h]
    exact List.forall_mem_flatMap.mpr hvs

end Milp
