import Milp.Evaluation
import Milp.Proofs.Enumeration
import Milp.Proofs.Failure

/-! Sums as lists of terms. The terms of a sum are the values of its body at the tuples that its
condition admits, in product order; evaluating the sum is evaluating them in that order and adding
them up. -/
namespace Milp

variable {V : Type}

namespace Aggregation

def inner (scope : Scope) (ranges : List Range) (t : Tuple) : Scope :=
  scope.child ((ranges.map Range.index).zip t)

def terms (st : Setting V) (scope : Scope) (body : Expr) (ranges : List Range)
    (condition : Option (Comparison Expr)) : List Tuple → Except Error (List (Resolved V))
  | [] => .ok []
  | t :: ts => do
    if ← Condition.eval st (inner scope ranges t) condition then
      let v ← body.eval st (inner scope ranges t)
      let vs ← terms st scope body ranges condition ts
      return v :: vs
    else terms st scope body ranges condition ts

/-- Every term is the value of the body in the scope of a tuple. -/
theorem exists_of_mem_terms {st : Setting V} {scope : Scope} {body : Expr} {ranges : List Range}
    {condition : Option (Comparison Expr)} {ts : List Tuple} {vs : List (Resolved V)}
    (h : terms st scope body ranges condition ts = .ok vs) {v : Resolved V} (hv : v ∈ vs) :
    ∃ t, body.eval st (inner scope ranges t) = .ok v := by
  induction ts generalizing vs with
  | nil =>
    cases h
    cases hv
  | cons t ts ih =>
    rw [terms] at h
    obtain ⟨admitted, _, h⟩ := bind_eq_ok.mp h
    cases admitted with
    | false => exact ih h hv
    | true =>
      rw [if_pos rfl] at h
      obtain ⟨w, hw, h⟩ := bind_eq_ok.mp h
      obtain ⟨ws, hws, h⟩ := bind_eq_ok.mp h
      cases h
      rcases List.mem_cons.mp hv with rfl | hv
      · exact ⟨t, hw⟩
      · exact ih hws hv

/-- The terms of two lists of tuples one after the other. -/
theorem terms_append (st : Setting V) (scope : Scope) (body : Expr) (ranges : List Range)
    (condition : Option (Comparison Expr)) (ts us : List Tuple) :
    terms st scope body ranges condition (ts ++ us) = (do
      let vs ← terms st scope body ranges condition ts
      let ws ← terms st scope body ranges condition us
      return vs ++ ws) := by
  induction ts with
  | nil =>
    rw [List.nil_append, terms, ok_bind]
    cases terms st scope body ranges condition us <;> rfl
  | cons t ts ih =>
    rw [List.cons_append, terms, terms, ih, bind_assoc]
    refine bind_congr fun admitted => ?_
    cases admitted with
    | false => rfl
    | true => simp only [if_true, bind_assoc, pure_bind, List.cons_append]

/-- Without a condition every tuple contributes a term. -/
theorem terms_unconditional (st : Setting V) (scope : Scope) (body : Expr) (ranges : List Range)
    (ts : List Tuple) :
    terms st scope body ranges none ts = ts.mapM fun t => body.eval st (inner scope ranges t) := by
  induction ts with
  | nil => rfl
  | cons t ts ih =>
    rw [terms, Condition.eval, ok_bind, if_pos rfl, ih, List.mapM_cons]

private def extend (st : Setting V) (scope : Scope) (body : Expr) (ranges : List Range)
    (condition : Option (Comparison Expr)) (seen : List (Resolved V)) (t : Tuple) :
    Except Error (List (Resolved V)) := do
  if ← Condition.eval st (inner scope ranges t) condition then
    let v ← body.eval st (inner scope ranges t)
    return v :: seen
  else return seen

private theorem foldlM_extend (st : Setting V) (scope : Scope) (body : Expr) (ranges : List Range)
    (condition : Option (Comparison Expr)) (ts : List Tuple) (seen : List (Resolved V)) :
    ts.foldlM (extend st scope body ranges condition) seen =
      (terms st scope body ranges condition ts).map fun vs => vs.reverse ++ seen := by
  induction ts generalizing seen with
  | nil => rfl
  | cons t ts ih =>
    rw [List.foldlM_cons, terms, extend]
    cases Condition.eval st (inner scope ranges t) condition with
    | error e => rfl
    | ok admitted =>
      cases admitted with
      | false => exact ih seen
      | true =>
        simp only [ok_bind, if_true]
        cases body.eval st (inner scope ranges t) with
        | error e => rfl
        | ok v =>
          simp only [ok_bind, pure_eq_ok, ih]
          cases terms st scope body ranges condition ts with
          | error e => rfl
          | ok vs => simp [Except.map]

/-- A sum is evaluated by looking its sets up, comparing the size of their product with the limit,
evaluating the terms and adding them up. -/
theorem eval_sum (st : Setting V) (scope : Scope) (body : Expr) (ranges : List Range)
    (condition : Option (Comparison Expr)) :
    Aggregation.eval st scope ⟨.sum, body, ranges, condition⟩ = (do
      let axes ← st.axes (ranges.map Range.set)
      match exceeded? axes st.limits.terms with
      | some (size, limit) =>
        .error (.limitExceeded (Aggregation.text ⟨.sum, body, ranges, condition⟩) size limit)
      | none =>
        let vs ← terms st scope body ranges condition (tuples axes)
        Resolved.sum scope vs) := by
  rw [Aggregation.eval, if_pos rfl]
  refine bind_congr fun axes => ?_
  cases exceeded? axes st.limits.terms with
  | some p => rfl
  | none =>
    simp only
    have h := foldlM_extend st scope body ranges condition (tuples axes) []
    rw [← Odometer.forAll_eq_foldlM] at h
    change (Odometer.forAll axes (extend st scope body ranges condition) [] >>= fun vs =>
      Resolved.sum scope vs.reverse) = _
    rw [h]
    cases terms st scope body ranges condition (tuples axes) with
    | error e => rfl
    | ok vs => simp [Except.map]

/-- An aggregation that has a value is a sum over known sets, and the value is that of its terms added
up. -/
theorem eval_eq_ok {st : Setting V} {scope : Scope} {op : Aggregator} {body : Expr}
    {ranges : List Range} {condition : Option (Comparison Expr)} {r : Resolved V}
    (h : Aggregation.eval st scope ⟨op, body, ranges, condition⟩ = .ok r) :
    op = .sum ∧ ∃ axes vs, st.axes (ranges.map Range.set) = .ok axes ∧
      terms st scope body ranges condition (tuples axes) = .ok vs ∧
      Resolved.sum scope vs = .ok r := by
  by_cases hop : op = .sum
  · subst hop
    rw [eval_sum] at h
    obtain ⟨axes, haxes, h⟩ := bind_eq_ok.mp h
    cases hlimit : exceeded? axes st.limits.terms with
    | some p => simp [hlimit] at h
    | none =>
      simp only [hlimit] at h
      obtain ⟨vs, hvs, h⟩ := bind_eq_ok.mp h
      exact ⟨rfl, axes, vs, haxes, hvs, h⟩
  · rw [Aggregation.eval, if_neg hop] at h
    cases h

end Aggregation

end Milp
