import Milp.Proofs.Evaluation.Terms
import Milp.Proofs.Expansion
import Milp.Proofs.Expr.Induction

/-! Evaluation in two settings. Where the lookups of one setting end as those of another one do,
unless these fail in a given way, so do evaluation and expansion: nothing else of a setting is
read. -/
namespace Milp

/-- Whether two computations end alike, or the first one fails in a given way. -/
inductive AlikeUnless {ε α : Type} (p : ε → Prop) : Except ε α → Except ε α → Prop
  | same (x : Except ε α) : AlikeUnless p x x
  | cut {e : ε} (h : p e) (y : Except ε α) : AlikeUnless p (.error e) y

namespace AlikeUnless

variable {ε α β σ : Type} {p : ε → Prop}

theorem eq_ok {a : α} {y : Except ε α} (h : AlikeUnless p (.ok a) y) : y = .ok a := by
  cases h
  rfl

theorem eq_of_failsOnly {x y : Except ε α} (h : AlikeUnless p x y)
    (hx : FailsOnly (fun e => ¬ p e) x) : y = x := by
  cases h with
  | same => rfl
  | cut he => exact absurd he (hx _ rfl)

/-- Computations are alike up to failures when the second one has the results of the first one. -/
theorem of_results {x y : Except ε α} (h : ∀ a, x = .ok a → y = .ok a) :
    AlikeUnless (fun _ => True) x y := by
  cases x with
  | error e => exact .cut trivial y
  | ok a =>
    rw [h a rfl]
    exact .same _

theorem bind {x y : Except ε α} {f g : α → Except ε β} (h : AlikeUnless p x y)
    (hf : ∀ a, AlikeUnless p (f a) (g a)) : AlikeUnless p (x >>= f) (y >>= g) := by
  cases h with
  | cut he y => exact .cut he _
  | same =>
    cases x with
    | error e => exact .same _
    | ok a => exact hf a

theorem map {x y : Except ε α} (h : AlikeUnless p x y) (f : α → β) :
    AlikeUnless p (x.map f) (y.map f) := by
  cases h with
  | cut he y => exact .cut he _
  | same => exact .same _

theorem mapM {f g : α → Except ε β} (h : ∀ a, AlikeUnless p (f a) (g a)) (as : List α) :
    AlikeUnless p (as.mapM f) (as.mapM g) := by
  induction as with
  | nil => exact .same _
  | cons a as ih =>
    rw [List.mapM_cons, List.mapM_cons]
    exact (h a).bind fun b => ih.bind fun bs => .same _

end AlikeUnless

def withinLimit (owner : String) (axes : List (List Element)) (limit : Option Nat) :
    Except Error Unit :=
  match exceeded? axes limit with
  | some (size, limit) => .error (.limitExceeded owner size limit)
  | none => .ok ()

variable {V : Type}

theorem Aggregation.eval_sum_limited (st : Setting V) (scope : Scope) (body : Expr)
    (ranges : List Range) (condition : Option (Comparison Expr)) :
    Aggregation.eval st scope ⟨.sum, body, ranges, condition⟩ = (do
      let axes ← st.axes (ranges.map Range.set)
      withinLimit (Aggregation.text ⟨.sum, body, ranges, condition⟩) axes st.limits.terms
      let vs ← terms st scope body ranges condition (tuples axes)
      Resolved.sum scope vs) := by
  rw [eval_sum]
  refine bind_congr fun axes => ?_
  rw [withinLimit]
  cases exceeded? axes st.limits.terms <;> rfl

theorem Constraint.expand_limited {st : Setting V} {c : Constraint}
    (h : c.quantifiers ≠ []) :
    c.expand st = (do
      let axes ← st.axes (c.quantifiers.map Quantifier.set)
      withinLimit c.name axes st.limits.instances
      walk st c (tuples axes)) := by
  rw [expand_quantified h]
  refine bind_congr fun axes => ?_
  rw [withinLimit]
  cases exceeded? axes st.limits.instances <;> rfl

theorem Condition.holdAll_cons (st : Setting V) (scope : Scope) (c : Comparison Expr)
    (cs : List (Comparison Expr)) :
    holdAll st scope (c :: cs) = (Condition.eval st scope (some c) >>= fun holds =>
      if holds then holdAll st scope cs else .ok false) := by
  rw [holdAll]
  cases Condition.eval st scope (some c) with
  | error e => rfl
  | ok holds => cases holds <;> rfl

theorem Constraint.walk_cons (st : Setting V) (c : Constraint) (t : Tuple)
    (ts : List Tuple) :
    walk st c (t :: ts) = (do
      let scope := [Quantifier.bindings c.quantifiers t]
      if ← Condition.holdAll st scope (c.quantifiers.filterMap Quantifier.condition) then
        let r ← Comparison.eval st scope c.body
        (walk st c ts).map fun e => { e with instances := ⟨some t, r⟩ :: e.instances }
      else (walk st c ts).map fun e => { e with skipped := e.skipped + 1 }) := by
  rw [walk]
  simp only
  cases Condition.holdAll st [Quantifier.bindings c.quantifiers t]
      (c.quantifiers.filterMap Quantifier.condition) with
  | error e => rfl
  | ok holds =>
    cases holds with
    | false => rfl
    | true => cases Comparison.eval st [Quantifier.bindings c.quantifiers t] c.body <;> rfl

theorem Setting.checkArity_eq (st : Setting V) (kind : RefKind) (name : String)
    (found : Nat) (scope : Scope) :
    st.checkArity kind name found scope = (st.dimension kind name scope >>= fun expected =>
      if found ≠ expected then .error (.arity kind name expected found scope.snapshot)
      else .ok ()) := by
  rw [checkArity]
  cases st.dimension kind name scope <;> rfl

/-- Whether everything that evaluation asks a setting for is answered alike by another one, or by a
failure of a given kind. -/
structure Setting.AgreesUnless (p : Error → Prop) (st st' : Setting V) : Prop where
  elements : ∀ name, AlikeUnless p (st.elements name) (st'.elements name)
  dimension : ∀ kind name scope,
    AlikeUnless p (st.dimension kind name scope) (st'.dimension kind name scope)
  lookup : ∀ kind name index scope,
    AlikeUnless p (st.lookup kind name index scope) (st'.lookup kind name index scope)
  terms : ∀ owner axes,
    AlikeUnless p (withinLimit owner axes st.limits.terms) (withinLimit owner axes st'.limits.terms)
  instances : ∀ owner axes,
    AlikeUnless p (withinLimit owner axes st.limits.instances)
      (withinLimit owner axes st'.limits.instances)

section

variable {p : Error → Prop} {st st' : Setting V}

theorem Setting.AgreesUnless.axes (h : st.AgreesUnless p st') (names : List String) :
    AlikeUnless p (st.axes names) (st'.axes names) :=
  AlikeUnless.mapM h.elements names

theorem Setting.AgreesUnless.arity (h : st.AgreesUnless p st') (kind : RefKind) (name : String)
    (found : Nat) (scope : Scope) :
    AlikeUnless p (st.checkArity kind name found scope) (st'.checkArity kind name found scope) := by
  rw [checkArity_eq, checkArity_eq]
  exact (h.dimension kind name scope).bind fun expected => .same _

private theorem Comparison.eval_alike {scope : Scope} {c : Comparison Expr}
    (hl : AlikeUnless p (c.left.eval st scope) (c.left.eval st' scope))
    (hr : AlikeUnless p (c.right.eval st scope) (c.right.eval st' scope)) :
    AlikeUnless p (Comparison.eval st scope c) (Comparison.eval st' scope c) := by
  obtain ⟨form, l, relation, r⟩ := c
  rw [Comparison.eval, Comparison.eval]
  exact hl.bind fun _ => hr.bind fun _ => .same _

private theorem Expr.evalPositions_alike {scope : Scope} {name : String} {positions : List Expr}
    (h : ∀ e ∈ positions, AlikeUnless p (e.eval st scope) (e.eval st' scope)) :
    AlikeUnless p (evalPositions st scope name positions)
      (evalPositions st' scope name positions) := by
  induction positions with
  | nil =>
    rw [evalPositions, evalPositions]
    exact .same _
  | cons e es ih =>
    have htail := ih fun d hd => h d (List.mem_cons_of_mem _ hd)
    rw [evalPositions, evalPositions]
    refine (h e List.mem_cons_self).bind fun v => ?_
    exact AlikeUnless.bind (.same _) fun x => htail.bind fun xs => .same _

private theorem Aggregation.terms_alike {scope : Scope} {body : Expr} {ranges : List Range}
    {condition : Option (Comparison Expr)}
    (hbody : ∀ scope, AlikeUnless p (body.eval st scope) (body.eval st' scope))
    (hcondition : ∀ scope,
      AlikeUnless p (Condition.eval st scope condition) (Condition.eval st' scope condition))
    (ts : List Tuple) :
    AlikeUnless p (terms st scope body ranges condition ts)
      (terms st' scope body ranges condition ts) := by
  induction ts with
  | nil => exact .same _
  | cons t ts ih =>
    rw [terms, terms]
    refine (hcondition _).bind fun holds => ?_
    cases holds with
    | false => exact ih
    | true => exact (hbody _).bind fun v => ih.bind fun vs => .same _

private theorem Aggregation.eval_alike (h : st.AgreesUnless p st') {scope : Scope} {op : Aggregator}
    {body : Expr} {ranges : List Range} {condition : Option (Comparison Expr)}
    (hbody : ∀ scope, AlikeUnless p (body.eval st scope) (body.eval st' scope))
    (hcondition : ∀ scope,
      AlikeUnless p (Condition.eval st scope condition) (Condition.eval st' scope condition)) :
    AlikeUnless p (eval st scope ⟨op, body, ranges, condition⟩)
      (eval st' scope ⟨op, body, ranges, condition⟩) := by
  by_cases hop : op = .sum
  · subst hop
    rw [eval_sum_limited, eval_sum_limited]
    refine (h.axes _).bind fun axes => (h.terms _ axes).bind fun _ => ?_
    exact (terms_alike hbody hcondition _).bind fun vs => .same _
  · rw [eval, eval, if_neg hop, if_neg hop]
    exact .same _

/-- Evaluation reads nothing of a setting but its answers. -/
theorem Expr.eval_alike (h : st.AgreesUnless p st') (e : Expr) (scope : Scope) :
    AlikeUnless p (e.eval st scope) (e.eval st' scope) := by
  induction e generalizing scope with
  | number n =>
    rw [eval, eval]
    exact .same _
  | string s =>
    rw [eval, eval]
    exact .same _
  | indexVar name =>
    rw [eval, eval]
    exact .same _
  | ref kind name =>
    rw [eval, eval]
    exact (h.arity kind name 0 scope).bind fun _ => h.lookup kind name [] scope
  | refAt kind name positions ih =>
    have hpositions : AlikeUnless p (evalPositions st scope name positions)
        (evalPositions st' scope name positions) :=
      evalPositions_alike fun d hd => ih d hd scope
    rw [eval, eval]
    refine (h.arity kind name _ scope).bind fun _ => ?_
    exact hpositions.bind fun index => h.lookup kind name index scope
  | unary op e ih =>
    rw [eval, eval]
    exact (ih scope).bind fun v => .same _
  | binary op l r ihl ihr =>
    rw [eval, eval]
    exact (ihl scope).bind fun a => (ihr scope).bind fun b => .same _
  | aggregate op body ranges condition ihbody ihcondition =>
    have hcondition (inner : Scope) :
        AlikeUnless p (Condition.eval st inner condition) (Condition.eval st' inner condition) := by
      rw [Condition.eval.eq_def, Condition.eval.eq_def]
      cases condition with
      | none => exact .same _
      | some c =>
        obtain ⟨ihl, ihr⟩ := ihcondition c rfl
        exact (Comparison.eval_alike (ihl inner) (ihr inner)).bind fun r => .same _
    rw [eval, eval]
    exact Aggregation.eval_alike h ihbody hcondition

theorem Condition.eval_alike (h : st.AgreesUnless p st') (c : Comparison Expr) (scope : Scope) :
    AlikeUnless p (Condition.eval st scope (some c)) (Condition.eval st' scope (some c)) := by
  rw [Condition.eval, Condition.eval]
  exact (Comparison.eval_alike (c.left.eval_alike h scope) (c.right.eval_alike h scope)).bind
    fun r => .same _

private theorem Condition.holdAll_alike (h : st.AgreesUnless p st') (cs : List (Comparison Expr))
    (scope : Scope) : AlikeUnless p (holdAll st scope cs) (holdAll st' scope cs) := by
  induction cs with
  | nil => exact .same _
  | cons c cs ih =>
    rw [holdAll_cons, holdAll_cons]
    refine (Condition.eval_alike h c scope).bind fun holds => ?_
    cases holds with
    | false => exact .same _
    | true => exact ih

private theorem Constraint.walk_alike (h : st.AgreesUnless p st') (c : Constraint)
    (ts : List Tuple) : AlikeUnless p (walk st c ts) (walk st' c ts) := by
  induction ts with
  | nil => exact .same _
  | cons t ts ih =>
    rw [walk_cons, walk_cons]
    refine (Condition.holdAll_alike h _ _).bind fun holds => ?_
    cases holds with
    | false => exact ih.map _
    | true =>
      refine AlikeUnless.bind ?_ fun r => ih.map _
      exact Comparison.eval_alike (c.body.left.eval_alike h _) (c.body.right.eval_alike h _)

/-- Expansion reads nothing of a setting but its answers. -/
theorem Constraint.expand_alike (h : st.AgreesUnless p st') (c : Constraint) :
    AlikeUnless p (c.expand st) (c.expand st') := by
  by_cases hq : c.quantifiers = []
  · rw [expand_unquantified hq, expand_unquantified hq]
    refine AlikeUnless.map ?_ _
    exact Comparison.eval_alike (c.body.left.eval_alike h _) (c.body.right.eval_alike h _)
  · rw [expand_limited hq, expand_limited hq]
    refine (h.axes _).bind fun axes => (h.instances _ axes).bind fun _ => ?_
    exact walk_alike h c _

end

end Milp
