import Milp.Expansion
import Milp.Model.Basic
import Milp.Proofs.Evaluation.Terms
import Milp.Proofs.Expansion
import Milp.Proofs.Expr.Induction
import Milp.Proofs.Scope

/-! Failures of evaluation, expansion and checks. Arithmetic on scalars fails over its operands,
and lookups fail over what is declared. Beyond these there are two kinds of failure: a value that
cannot be an index position, and a condition that has no truth value. No failure reports a target. -/
namespace Milp

variable {V : Type}

def Error.OfScalars : Error → Prop
  | .unboundIndex _ _ => True
  | .typeMismatch _ _ _ => True
  | .divisionByZero _ => True
  | _ => False

def Error.OfOperands (scope : Scope) : Error → Prop
  | .typeMismatch _ _ snapshot => snapshot = scope.snapshot
  | .divisionByZero snapshot => snapshot = scope.snapshot
  | _ => False

/-- Whether a failure is about a reference in a scope, which it shows: nothing is declared under its
name, or nothing at its index. -/
def Error.OfReference (scope : Scope) : Error → Prop
  | .unknownVariable _ snapshot => snapshot = scope.snapshot
  | .unknownParameter _ snapshot => snapshot = scope.snapshot
  | .arity _ _ _ _ snapshot => snapshot = scope.snapshot
  | .missingValue _ _ snapshot => snapshot = scope.snapshot
  | .outOfRange _ _ snapshot => snapshot = scope.snapshot
  | _ => False

def Error.OfEnumeration : Error → Prop
  | .unknownSet _ => True
  | .limitExceeded _ _ _ => True
  | .unsupportedAggregator _ => True
  | _ => False

/-- Whether a failure is about a model and not about what stands in an index position or in a
condition. -/
def Error.Plain : Error → Prop
  | .invalidIndex _ _ _ => False
  | .symbolicCondition _ _ => False
  | .target _ => False
  | _ => True

/-- Whether a failure is about a model and not reported by a target. -/
def Error.Intrinsic : Error → Prop
  | .target _ => False
  | _ => True

theorem Error.OfScalars.plain {e : Error} (h : e.OfScalars) : e.Plain := by
  cases e <;> trivial

theorem Error.OfOperands.ofScalars {e : Error} {scope : Scope} (h : e.OfOperands scope) :
    e.OfScalars := by
  cases e <;> trivial

theorem Error.OfReference.plain {e : Error} {scope : Scope} (h : e.OfReference scope) :
    e.Plain := by
  cases e <;> trivial

theorem Error.OfEnumeration.plain {e : Error} (h : e.OfEnumeration) : e.Plain := by
  cases e <;> trivial

theorem Error.Plain.intrinsic {e : Error} (h : e.Plain) : e.Intrinsic := by
  cases e <;> trivial

abbrev FailsIntrinsically {α : Type} (x : Except Error α) : Prop := FailsOnly Error.Intrinsic x

namespace Scalar

theorem floating_failsOnly (op : BinaryOp) (x y : Float) (scope : Scope) :
    FailsOnly (Error.OfOperands scope) (floating op x y scope) := by
  cases op with
  | add => exact .ok _
  | sub => exact .ok _
  | mul => exact .ok _
  | div =>
    rw [floating]
    split
    · exact .error rfl
    · exact .ok _

theorem unary_failsOnly (op : UnaryOp) (s : Scalar) (scope : Scope) :
    FailsOnly (Error.OfOperands scope) (s.unary op scope) := by
  rw [unary.eq_def]
  split
  · exact .error rfl
  · exact .ok _
  · split
    · split <;> exact .ok _
    · exact .ok _

theorem binary_failsOnly (op : BinaryOp) (l r : Scalar) (scope : Scope) :
    FailsOnly (Error.OfOperands scope) (l.binary op r scope) := by
  rw [binary.eq_def]
  split
  · split
    · exact .ok _
    · exact floating_failsOnly op _ _ scope
  · exact floating_failsOnly op _ _ scope
  · exact floating_failsOnly op _ _ scope
  · exact floating_failsOnly op _ _ scope
  · exact .error rfl

theorem related_failsOnly (relation : Relation) (l r : Scalar) (scope : Scope) :
    FailsOnly (Error.OfOperands scope) (related relation l r scope) := by
  rw [related.eq_def]
  split
  · exact .ok _
  · exact .ok _
  · split
    · exact .error rfl
    · split <;> exact .ok _

end Scalar

namespace Resolved

theorem lift_failsOnly (op : String) (scope : Scope) (v : Resolved V) :
    FailsOnly (Error.OfOperands scope) (v.lift op scope) := by
  rw [lift.eq_def]
  split
  · exact .ok _
  · exact .ok _
  · exact .ok _
  · exact .error rfl

theorem unary_failsOnly (op : UnaryOp) (scope : Scope) (v : Resolved V) :
    FailsOnly (Error.OfOperands scope) (v.unary op scope) := by
  cases v with
  | host s => exact (Scalar.unary_failsOnly op s scope).bind fun _ => .ok _
  | symbolic e => cases op <;> exact .ok _

theorem binary_failsOnly (op : BinaryOp) (scope : Scope) (l r : Resolved V) :
    FailsOnly (Error.OfOperands scope) (binary op scope l r) := by
  rw [binary.eq_def]
  split
  · exact (Scalar.binary_failsOnly op _ _ scope).bind fun _ => .ok _
  · refine (lift_failsOnly op.name scope _).bind fun _ => ?_
    exact (lift_failsOnly op.name scope _).bind fun _ => .ok _

theorem sum_failsOnly (scope : Scope) (vs : List (Resolved V)) :
    FailsOnly (Error.OfOperands scope) (sum scope vs) := by
  rw [sum.eq_def]
  split
  · exact .ok _
  · exact .ok _
  · split
    · refine FailsOnly.bind (FailsOnly.foldlM (fun total s _ => ?_) _) fun _ => .ok _
      exact Scalar.binary_failsOnly .add total s scope
    · refine FailsOnly.bind (FailsOnly.mapM fun t _ => ?_) fun _ => .ok _
      exact lift_failsOnly _ scope t

/-- A value that cannot be an index position is symbolic or a float without an integer value. -/
theorem position_eq_error {name : String} {e : Expr} {scope : Scope} {v : Resolved V} {err : Error}
    (h : v.position name e scope = .error err) :
    (∃ x, v = .host (.float x) ∧ Scalar.integral? x = none ∧
      err = .invalidIndex name
        (quoted e.text ++ " evaluated to float " ++ quoted (Scalar.float x).text)
        scope.snapshot) ∨
    ∃ s, v = .symbolic s ∧
      err = .invalidIndex name (quoted e.text ++ " references a decision variable")
        scope.snapshot := by
  cases v with
  | host s =>
    cases s with
    | int n => cases h
    | str s => cases h
    | float x =>
      cases hx : Scalar.integral? x with
      | none =>
        have htext : quoted e.text ++ " evaluated to " ++ (Scalar.float x).kind ++ " " =
            quoted e.text ++ " evaluated to float " := by
          rw [String.append_assoc, String.append_assoc]
          rfl
        simp only [position, Scalar.element?, hx, Option.map_none, htext] at h
        cases h
        exact .inl ⟨x, rfl, hx, rfl⟩
      | some n => simp [position, Scalar.element?, hx] at h
  | symbolic s =>
    cases h
    exact .inr ⟨s, rfl, rfl⟩

theorem position_failsIntrinsically (name : String) (e : Expr) (scope : Scope) (v : Resolved V) :
    FailsIntrinsically (v.position name e scope) := by
  intro err h
  obtain ⟨x, _, _, rfl⟩ | ⟨s, _, rfl⟩ := position_eq_error h
  · trivial
  · trivial

end Resolved

namespace Setting

theorem axes_failsOnly (st : Setting V) (names : List String) :
    FailsOnly Error.OfEnumeration (st.axes names) := by
  refine FailsOnly.mapM fun name _ => ?_
  rw [elements]
  split
  · exact .ok _
  · exact .error trivial

theorem lookup_failsOnly (st : Setting V) (kind : RefKind) (name : String) (index : Tuple)
    (scope : Scope) : FailsOnly (Error.OfReference scope) (st.lookup kind name index scope) := by
  rw [lookup.eq_def]
  split
  · split
    · exact .ok _
    · exact .error rfl
  · split
    · exact .ok _
    · exact .error rfl

theorem checkArity_failsOnly (st : Setting V) (kind : RefKind) (name : String) (found : Nat)
    (scope : Scope) : FailsOnly (Error.OfReference scope) (st.checkArity kind name found scope) := by
  have hdimension : FailsOnly (Error.OfReference scope) (st.dimension kind name scope) := by
    rw [dimension.eq_def]
    split
    · split
      · exact .ok _
      · exact .error rfl
    · split
      · exact .ok _
      · exact .error rfl
  rw [checkArity]
  split
  · rename_i e he
    exact .error (hdimension e he)
  · split
    · exact .error rfl
    · exact .ok _

end Setting

theorem ResolvedComparison.decide_failsIntrinsically (c : Comparison Expr) (scope : Scope)
    (r : ResolvedComparison V) : FailsIntrinsically (r.decide c scope) := by
  rw [ResolvedComparison.decide]
  split
  · exact (Scalar.related_failsOnly _ _ _ scope).imp fun _ h => h.ofScalars.plain.intrinsic
  · exact .error trivial

section

variable {p : Error → Prop} {st : Setting V}

theorem Comparison.eval_failsOnly {scope : Scope} {c : Comparison Expr}
    (hl : FailsOnly p (c.left.eval st scope)) (hr : FailsOnly p (c.right.eval st scope)) :
    FailsOnly p (Comparison.eval st scope c) := by
  obtain ⟨form, l, relation, r⟩ := c
  rw [Comparison.eval]
  exact hl.bind fun _ => hr.bind fun _ => .ok _

private theorem Aggregation.terms_failsOnly {scope : Scope} {body : Expr} {ranges : List Range}
    {condition : Option (Comparison Expr)} {ts : List Tuple}
    (hbody : ∀ t ∈ ts, FailsOnly p (body.eval st (inner scope ranges t)))
    (hcondition : ∀ t ∈ ts, FailsOnly p (Condition.eval st (inner scope ranges t) condition)) :
    FailsOnly p (terms st scope body ranges condition ts) := by
  induction ts with
  | nil => exact .ok _
  | cons t ts ih =>
    have htail := ih (fun u hu => hbody u (List.mem_cons_of_mem _ hu))
      fun u hu => hcondition u (List.mem_cons_of_mem _ hu)
    rw [terms]
    refine (hcondition t List.mem_cons_self).bind fun holds => ?_
    cases holds with
    | false => exact htail
    | true => exact (hbody t List.mem_cons_self).bind fun _ => htail.bind fun _ => .ok _

/-- An aggregation fails over its enumeration, over its condition or its body at some tuple, or over
its terms as operands in the outer scope. -/
theorem Aggregation.eval_failsOnly (henumeration : ∀ e : Error, e.OfEnumeration → p e)
    {scope : Scope} (hoperands : ∀ e : Error, e.OfOperands scope → p e) {op : Aggregator}
    {body : Expr} {ranges : List Range} {condition : Option (Comparison Expr)}
    (hbody : ∀ t : Tuple, t.length = ranges.length →
      FailsOnly p (body.eval st (inner scope ranges t)))
    (hcondition : ∀ t : Tuple, t.length = ranges.length →
      FailsOnly p (Condition.eval st (inner scope ranges t) condition)) :
    FailsOnly p (eval st scope ⟨op, body, ranges, condition⟩) := by
  by_cases hop : op = .sum
  · subst hop
    rw [eval_sum]
    refine ((st.axes_failsOnly _).imp henumeration).bind_of_ok fun axes haxes => ?_
    have hlen (t : Tuple) (ht : t ∈ tuples axes) : t.length = ranges.length := by
      rw [length_of_mem_tuples ht, Setting.length_of_axes haxes, List.length_map]
    split
    · exact .error (henumeration _ trivial)
    · refine FailsOnly.bind ?_ fun vs => (Resolved.sum_failsOnly scope vs).imp hoperands
      exact terms_failsOnly (fun t ht => hbody t (hlen t ht)) fun t ht => hcondition t (hlen t ht)
  · rw [eval, if_neg hop]
    exact .error (henumeration _ trivial)

theorem Expr.evalPositions_failsOnly {scope : Scope} {name : String}
    {positions : List Expr} (heval : ∀ e ∈ positions, FailsOnly p (e.eval st scope))
    (hposition : ∀ e ∈ positions, ∀ v, e.eval st scope = .ok v →
      FailsOnly p (v.position name e scope)) :
    FailsOnly p (evalPositions st scope name positions) := by
  induction positions with
  | nil => exact .ok _
  | cons e es ih =>
    have htail : FailsOnly p (evalPositions st scope name es) :=
      ih (fun d hd => heval d (List.mem_cons_of_mem _ hd))
        fun d hd => hposition d (List.mem_cons_of_mem _ hd)
    rw [evalPositions]
    refine (heval e List.mem_cons_self).bind_of_ok fun v hv => ?_
    exact (hposition e List.mem_cons_self v hv).bind fun _ => htail.bind fun _ => .ok _

/-- An evaluation fails plainly, or over the value of some index position, or over the sides of
some condition. -/
theorem Expr.eval_failsOnly (hplain : ∀ e : Error, e.Plain → p e) (e : Expr)
    (hposition : ∀ kind name positions, Within (.refAt kind name positions) e →
      ∀ d ∈ positions, ∀ scope v, d.eval st scope = .ok v → FailsOnly p (v.position name d scope))
    (hcondition : ∀ op body ranges c, Within (.aggregate ⟨op, body, ranges, some c⟩) e →
      ∀ scope r, Comparison.eval st scope c = .ok r → FailsOnly p (r.decide c scope))
    (scope : Scope) : FailsOnly p (e.eval st scope) := by
  have hoperands {scope : Scope} (e : Error) (h : e.OfOperands scope) : p e :=
    hplain e h.ofScalars.plain
  have hreference {scope : Scope} (e : Error) (h : e.OfReference scope) : p e := hplain e h.plain
  induction e generalizing scope with
  | number n => exact .ok _
  | string s => exact .ok _
  | indexVar name =>
    rw [eval]
    split
    · exact .ok _
    · exact .error (hplain _ trivial)
  | ref kind name =>
    rw [eval]
    refine ((st.checkArity_failsOnly kind name 0 scope).imp hreference).bind fun _ => ?_
    exact (st.lookup_failsOnly kind name [] scope).imp hreference
  | refAt kind name positions ih =>
    have heval : ∀ d ∈ positions, FailsOnly p (d.eval st scope) := by
      intro d hd
      refine ih d hd (fun kind' name' positions' h => ?_) (fun op body ranges c h => ?_) scope
      · exact hposition kind' name' positions' (.position hd h)
      · exact hcondition op body ranges c (.position hd h)
    have hown : FailsOnly p (evalPositions st scope name positions) :=
      evalPositions_failsOnly heval fun d hd => hposition kind name positions .refl d hd scope
    rw [eval]
    refine ((st.checkArity_failsOnly kind name _ scope).imp hreference).bind fun _ => ?_
    exact hown.bind fun index => (st.lookup_failsOnly kind name index scope).imp hreference
  | unary op e ih =>
    have he := ih (fun kind name positions h => hposition kind name positions (.operand h))
      (fun op body ranges c h => hcondition op body ranges c (.operand h)) scope
    rw [eval]
    exact he.bind fun v => (v.unary_failsOnly op scope).imp hoperands
  | binary op l r ihl ihr =>
    have hl := ihl (fun kind name positions h => hposition kind name positions (.left h))
      (fun op body ranges c h => hcondition op body ranges c (.left h)) scope
    have hr := ihr (fun kind name positions h => hposition kind name positions (.right h))
      (fun op body ranges c h => hcondition op body ranges c (.right h)) scope
    rw [eval]
    exact hl.bind fun a => hr.bind fun b => (Resolved.binary_failsOnly op scope a b).imp hoperands
  | aggregate op body ranges condition ihbody ihcondition =>
    have hbody := ihbody (fun kind name positions h => hposition kind name positions (.body h))
      (fun op body ranges c h => hcondition op body ranges c (.body h))
    have hholds (inner : Scope) : FailsOnly p (Condition.eval st inner condition) := by
      cases condition with
      | none => exact .ok _
      | some c =>
        obtain ⟨ihl, ihr⟩ := ihcondition c rfl
        have hl := ihl
          (fun kind name positions h => hposition kind name positions (.conditionLeft h))
          (fun op body ranges c h => hcondition op body ranges c (.conditionLeft h)) inner
        have hr := ihr
          (fun kind name positions h => hposition kind name positions (.conditionRight h))
          (fun op body ranges c h => hcondition op body ranges c (.conditionRight h)) inner
        rw [Condition.eval]
        exact (Comparison.eval_failsOnly hl hr).bind_of_ok fun r hr =>
          hcondition op body ranges c .refl inner r hr
    rw [eval]
    exact Aggregation.eval_failsOnly (fun e h => hplain e h.plain) hoperands (fun t _ => hbody _)
      fun t _ => hholds _

private theorem Condition.holdAll_failsOnly {scope : Scope} {cs : List (Comparison Expr)}
    (h : ∀ c ∈ cs, FailsOnly p (Condition.eval st scope (some c))) :
    FailsOnly p (holdAll st scope cs) := by
  induction cs with
  | nil => exact .ok _
  | cons c cs ih =>
    rw [holdAll]
    split
    · rename_i e he
      exact .error (h c List.mem_cons_self e he)
    · exact .ok _
    · exact ih fun d hd => h d (List.mem_cons_of_mem _ hd)

/-- An expansion fails over its enumeration, or over the body or a condition in a scope that binds all
quantified variables. -/
theorem Constraint.expand_failsOnly (henumeration : ∀ e : Error, e.OfEnumeration → p e)
    {c : Constraint}
    (hbody : ∀ scope : Scope, (∀ q ∈ c.quantifiers, (scope.get? q.index).isSome = true) →
      FailsOnly p (Comparison.eval st scope c.body))
    (hcondition : ∀ d ∈ c.quantifiers.filterMap Quantifier.condition, ∀ scope : Scope,
      (∀ q ∈ c.quantifiers, (scope.get? q.index).isSome = true) →
      FailsOnly p (Condition.eval st scope (some d))) :
    FailsOnly p (c.expand st) := by
  by_cases hq : c.quantifiers = []
  · rw [expand_unquantified hq]
    refine (hbody .root ?_).map _
    rw [hq]
    exact nofun
  · rw [expand_quantified hq]
    refine ((st.axes_failsOnly _).imp henumeration).bind_of_ok fun axes haxes => ?_
    have hbound (t : Tuple) (ht : t ∈ tuples axes) :
        ∀ q ∈ c.quantifiers,
          (Scope.get? [Quantifier.bindings c.quantifiers t] q.index).isSome = true := by
      intro q hqs
      rw [← scope_eq_bindings, scope]
      refine Scope.isSome_get?_child_zip ?_ (List.mem_map_of_mem hqs)
      rw [length_of_mem_tuples ht, Setting.length_of_axes haxes, List.length_map, List.length_map]
    split
    · exact .error (henumeration _ trivial)
    · generalize tuples axes = ts at hbound
      induction ts with
      | nil => exact .ok _
      | cons t ts ih =>
        have htail := ih fun u hu => hbound u (List.mem_cons_of_mem _ hu)
        have ht := hbound t List.mem_cons_self
        rw [walk]
        split
        · rename_i e he
          exact .error (Condition.holdAll_failsOnly (fun d hd => hcondition d hd _ ht) e he)
        · exact htail.map _
        · split
          · rename_i e he
            exact .error (hbody _ ht e he)
          · exact htail.map _

end

/-- Evaluation fails for reasons of the model only. -/
theorem Expr.eval_failsIntrinsically (st : Setting V) (e : Expr) (scope : Scope) :
    FailsIntrinsically (e.eval st scope) :=
  Expr.eval_failsOnly (fun _ h => h.intrinsic) e
    (fun _ name _ _ d _ scope v _ => v.position_failsIntrinsically name d scope)
    (fun _ _ _ c _ scope r _ => r.decide_failsIntrinsically c scope) scope

/-- Expansion fails for reasons of the model only. -/
theorem Constraint.expand_failsIntrinsically (st : Setting V) (c : Constraint) :
    FailsIntrinsically (c.expand st) := by
  have hsides (d : Comparison Expr) (scope : Scope) :
      FailsIntrinsically (Comparison.eval st scope d) :=
    Comparison.eval_failsOnly (d.left.eval_failsIntrinsically st scope)
      (d.right.eval_failsIntrinsically st scope)
  refine Constraint.expand_failsOnly (fun _ h => h.plain.intrinsic) (fun scope _ => hsides _ scope)
    fun d _ scope _ => ?_
  rw [Condition.eval]
  exact (hsides d scope).bind fun r => r.decide_failsIntrinsically d scope

theorem Expr.checkIndex_failsIntrinsically (owner : String) (e : Expr) :
    FailsIntrinsically (e.checkIndex owner) := by
  induction e with
  | number n => exact .ok _
  | string s => exact .ok _
  | indexVar name => exact .ok _
  | ref kind name => exact .error trivial
  | refAt kind name positions ih => exact .error trivial
  | unary op e ih => exact ih
  | binary op l r ihl ihr => exact ihl.bind fun _ => ihr
  | aggregate op body ranges condition ihbody ihcondition => exact .error trivial

theorem Condition.check_failsIntrinsically (condition : Option (Comparison Expr)) :
    FailsIntrinsically (Condition.check condition) := by
  cases condition with
  | none => exact .ok _
  | some c =>
    exact (c.left.checkIndex_failsIntrinsically c.text).bind fun _ =>
      c.right.checkIndex_failsIntrinsically c.text

theorem Expr.check_failsIntrinsically (e : Expr) : FailsIntrinsically e.check := by
  induction e with
  | number n => exact .ok _
  | string s => exact .ok _
  | indexVar name => exact .ok _
  | ref kind name => exact .ok _
  | refAt kind name positions ih =>
    exact FailsOnly.forM fun p _ => p.checkIndex_failsIntrinsically name
  | unary op e ih => exact ih
  | binary op l r ihl ihr => exact ihl.bind fun _ => ihr
  | aggregate op body ranges condition ihbody ihcondition =>
    exact (Condition.check_failsIntrinsically condition).bind fun _ => ihbody

namespace Model

theorem findSet_failsIntrinsically (m : Model) (name : String) :
    FailsIntrinsically (m.findSet name) := by
  rw [findSet]
  split
  · exact .ok _
  · exact .error trivial

theorem checkNames_failsIntrinsically (m : Model) (names : List String) :
    FailsIntrinsically (m.checkNames names) :=
  FailsOnly.forM fun name _ => (m.findSet_failsIntrinsically name).map _

/-- The check of a model fails for reasons of the model only. -/
theorem check_failsIntrinsically (m : Model) : FailsIntrinsically m.check := by
  have hset : ∀ s ∈ m.sets.items, FailsIntrinsically s.check := by
    intro s _
    rw [IndexSet.check]
    split
    · exact .error trivial
    · split
      · exact .error trivial
      · exact .ok _
  have hconstraint (c : Constraint) : FailsIntrinsically (m.checkConstraint c) := by
    have hbody : FailsIntrinsically c.body.check :=
      c.body.left.check_failsIntrinsically.bind fun _ => c.body.right.check_failsIntrinsically
    have hself : FailsIntrinsically c.check := hbody.bind fun _ =>
      FailsOnly.forM fun q _ => Condition.check_failsIntrinsically q.condition
    exact hself.bind fun _ => m.checkNames_failsIntrinsically _
  have hobjective (o : Objective) : FailsIntrinsically (m.checkObjective o) :=
    o.expr.check_failsIntrinsically.bind fun _ => m.checkNames_failsIntrinsically _
  refine (FailsOnly.forM hset).bind fun _ => ?_
  refine (FailsOnly.forM fun p _ => m.checkNames_failsIntrinsically p.indices).bind fun _ => ?_
  refine (FailsOnly.forM fun v _ => m.checkNames_failsIntrinsically v.indices).bind fun _ => ?_
  refine (FailsOnly.forM fun c _ => hconstraint c).bind fun _ => ?_
  exact FailsOnly.forM fun o _ => hobjective o

end Model

end Milp
