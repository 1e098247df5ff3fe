import Milp.Proofs.Evaluation.Failures

/-! Staging. What stands in an index position or in a condition has a value before any decision
variable has one: it is read from the index scope alone. A checked expression therefore never
fails over a symbolic condition, and over an index position only where that is a float without an
integer value. -/
namespace Milp

namespace Expr

theorem checkIndex_eq_ok (owner : String) {e : Expr} :
    e.checkIndex owner = .ok () ↔ e.isIndexExpr = true := by
  induction e with
  | number n => exact iff_of_true rfl rfl
  | string s => exact iff_of_true rfl rfl
  | indexVar name => exact iff_of_true rfl rfl
  | ref kind name => exact iff_of_false nofun nofun
  | refAt kind name positions _ => exact iff_of_false nofun nofun
  | unary op e ih => exact ih
  | binary op l r ihl ihr =>
    rw [isIndexExpr, Bool.and_eq_true, ← ihl, ← ihr, checkIndex, bind_eq_ok]
    exact ⟨fun ⟨_, hl, hr⟩ => ⟨hl, hr⟩, fun ⟨hl, hr⟩ => ⟨(), hl, hr⟩⟩
  | aggregate op body ranges condition _ _ => exact iff_of_false nofun nofun

/-- The value of an index expression is a host value that depends on the scope alone. -/
theorem eval_index {e : Expr} (h : e.isIndexExpr = true) (scope : Scope) :
    ∃ r : Except Error Scalar, FailsOnly Error.OfScalars r ∧
      ∀ (V : Type) (st : Setting V), e.eval st scope = r.map .host := by
  induction e with
  | number n => exact ⟨.ok (.ofNumber n), .ok _, fun V st => by rw [eval]; rfl⟩
  | string s => exact ⟨.ok (.str s), .ok _, fun V st => by rw [eval]; rfl⟩
  | indexVar name =>
    cases hname : scope.get? name with
    | some x => exact ⟨.ok (.ofElement x), .ok _, fun V st => by rw [eval, hname]; rfl⟩
    | none =>
      refine ⟨.error (.unboundIndex name scope.snapshot), .error trivial, fun V st => ?_⟩
      rw [eval, hname]
      rfl
  | ref kind name => cases h
  | refAt kind name positions _ => cases h
  | unary op e ih =>
    obtain ⟨r, hr, he⟩ := ih h
    refine ⟨r >>= fun v => v.unary op scope, hr.bind fun v => ?_, ?_⟩
    · exact (v.unary_failsOnly op scope).imp fun _ h => h.ofScalars
    intro V st
    rw [eval, he]
    cases r with
    | error err => rfl
    | ok v => cases hv : v.unary op scope <;> simp [Except.map, Resolved.unary, hv]
  | binary op l r ihl ihr =>
    obtain ⟨hleft, hright⟩ := Bool.and_eq_true_iff.mp h
    obtain ⟨a, ha, hl⟩ := ihl hleft
    obtain ⟨b, hb, hr⟩ := ihr hright
    refine ⟨a >>= fun x => b >>= fun y => x.binary op y scope, ?_, fun V st => ?_⟩
    · exact ha.bind fun x => hb.bind fun y =>
        (x.binary_failsOnly op y scope).imp fun _ h => h.ofScalars
    rw [eval, hl, hr]
    cases a with
    | error err => rfl
    | ok x =>
      cases b with
      | error err => rfl
      | ok y => cases hxy : x.binary op y scope <;> simp [Except.map, Resolved.binary, hxy]
  | aggregate op body ranges condition _ _ => cases h

theorem check_of_isIndexExpr {e : Expr} (h : e.isIndexExpr = true) : e.check = .ok () := by
  induction e with
  | number n => rfl
  | string s => rfl
  | indexVar name => rfl
  | ref kind name => rfl
  | refAt kind name positions _ => cases h
  | unary op e ih => exact ih h
  | binary op l r ihl ihr =>
    obtain ⟨hl, hr⟩ := Bool.and_eq_true_iff.mp h
    rw [check, ihl hl, ok_bind, ihr hr]
  | aggregate op body ranges condition _ _ => cases h

theorem isIndexExpr_of_check {kind : RefKind} {name : String} {positions : List Expr}
    (h : (refAt kind name positions).check = .ok ()) : ∀ d ∈ positions, d.isIndexExpr = true :=
  fun d hd => (checkIndex_eq_ok name).mp (forM_eq_ok.mp h d hd)

end Expr

theorem Comparison.checkIndex_eq_ok {c : Comparison Expr} :
    c.checkIndex = .ok () ↔ c.left.isIndexExpr = true ∧ c.right.isIndexExpr = true := by
  rw [checkIndex, bind_eq_ok, ← Expr.checkIndex_eq_ok c.text, ← Expr.checkIndex_eq_ok c.text]
  exact ⟨fun ⟨_, hl, hr⟩ => ⟨hl, hr⟩, fun ⟨hl, hr⟩ => ⟨(), hl, hr⟩⟩

/-- The value of a checked condition depends on the scope alone. -/
theorem Condition.eval_index {c : Comparison Expr} (h : c.checkIndex = .ok ()) (scope : Scope) :
    ∃ r : Except Error Bool, FailsOnly Error.OfScalars r ∧
      ∀ (V : Type) (st : Setting V), Condition.eval st scope (some c) = r := by
  obtain ⟨form, l, relation, r⟩ := c
  obtain ⟨hleft, hright⟩ := Comparison.checkIndex_eq_ok.mp h
  obtain ⟨a, ha, hl⟩ := Expr.eval_index hleft scope
  obtain ⟨b, hb, hr⟩ := Expr.eval_index hright scope
  refine ⟨a >>= fun x => b >>= fun y => Scalar.related relation x y scope, ?_, fun V st => ?_⟩
  · exact ha.bind fun x => hb.bind fun y =>
      (Scalar.related_failsOnly relation x y scope).imp fun _ h => h.ofScalars
  rw [Condition.eval, Comparison.eval, hl, hr]
  cases a with
  | error err => rfl
  | ok x => cases b <;> rfl

namespace Expr

theorem check_aggregate {op : Aggregator} {body : Expr} {ranges : List Range}
    {condition : Option (Comparison Expr)} :
    (aggregate ⟨op, body, ranges, condition⟩).check = .ok () ↔
      Condition.check condition = .ok () ∧ body.check = .ok () := by
  rw [check, bind_eq_ok]
  exact ⟨fun ⟨_, hc, hb⟩ => ⟨hc, hb⟩, fun ⟨hc, hb⟩ => ⟨(), hc, hb⟩⟩

/-- The parts of a checked expression are checked. -/
theorem Within.check {d e : Expr} (h : d.Within e) (he : e.check = .ok ()) : d.check = .ok () := by
  induction h with
  | refl => exact he
  | position hmem _ ih => exact ih (check_of_isIndexExpr (isIndexExpr_of_check he _ hmem))
  | operand _ ih => exact ih he
  | left _ ih =>
    obtain ⟨_, hl, _⟩ := bind_eq_ok.mp he
    exact ih hl
  | right _ ih =>
    obtain ⟨_, _, hr⟩ := bind_eq_ok.mp he
    exact ih hr
  | body _ ih => exact ih (check_aggregate.mp he).2
  | conditionLeft _ ih =>
    obtain ⟨hl, _⟩ := Comparison.checkIndex_eq_ok.mp (check_aggregate.mp he).1
    exact ih (check_of_isIndexExpr hl)
  | conditionRight _ ih =>
    obtain ⟨_, hr⟩ := Comparison.checkIndex_eq_ok.mp (check_aggregate.mp he).1
    exact ih (check_of_isIndexExpr hr)

end Expr

def Error.OfStaging : Error → Prop
  | .invalidIndex _ _ _ => True
  | .symbolicCondition _ _ => True
  | _ => False

/-- Whether a failure that reports an index position is about one of given positions, which is a
float without an integer value in some scope; symbolic conditions are not reported at all. -/
def Error.Staged (occurs : String → Expr → Prop) (e : Error) : Prop :=
  e.OfStaging → ∃ name p scope x, occurs name p ∧ p.isIndexExpr = true ∧
    (∀ (V : Type) (st : Setting V), p.eval st scope = .ok (.host (.float x))) ∧
    Scalar.integral? x = none ∧
    e = .invalidIndex name
      (quoted p.text ++ " evaluated to float " ++ quoted (Scalar.float x).text) scope.snapshot

theorem Error.Plain.staged {e : Error} (h : e.Plain) (occurs : String → Expr → Prop) :
    e.Staged occurs := by
  intro hstaging
  cases e <;> contradiction

section

variable {V : Type} {st : Setting V} {occurs : String → Expr → Prop}

/-- The evaluation of a checked expression respects staging. -/
theorem Expr.eval_staged {e : Expr} (h : e.check = .ok ())
    (hoccurs : ∀ kind name positions, Within (.refAt kind name positions) e →
      ∀ d ∈ positions, occurs name d) (scope : Scope) :
    FailsOnly (Error.Staged occurs) (e.eval st scope) := by
  refine eval_failsOnly (fun _ hp => hp.staged occurs) e ?_ ?_ scope
  · intro kind name positions hwithin d hd inner v hv err herr
    have hindex : d.isIndexExpr = true := isIndexExpr_of_check (hwithin.check h) d hd
    obtain ⟨r, _, hr⟩ := eval_index hindex inner
    rw [hr] at hv
    obtain ⟨s, rfl, rfl⟩ := map_eq_ok.mp hv
    obtain ⟨x, hx, hnone, rfl⟩ | ⟨_, hsymbolic, _⟩ := Resolved.position_eq_error herr
    · cases hx
      intro _
      exact ⟨name, d, inner, x, hoccurs kind name positions hwithin d hd, hindex,
        fun W st' => hr W st', hnone, rfl⟩
    · cases hsymbolic
  · intro op body ranges c hwithin inner r hr err herr
    obtain ⟨hcheck, _⟩ := check_aggregate.mp (hwithin.check h)
    obtain ⟨holds, hfails, hholds⟩ := Condition.eval_index hcheck inner
    have hcondition := hholds V st
    rw [Condition.eval, hr, ok_bind, herr] at hcondition
    exact (hfails err hcondition.symm).plain.staged occurs

def Constraint.exprs (c : Constraint) : List Expr :=
  c.body.left :: c.body.right ::
    (c.quantifiers.filterMap Quantifier.condition).flatMap fun d => [d.left, d.right]

/-- The expansion of a checked constraint respects staging. -/
theorem Constraint.expand_staged {c : Constraint} (h : c.check = .ok ())
    (hoccurs : ∀ e ∈ c.exprs, ∀ kind name positions, Expr.Within (.refAt kind name positions) e →
      ∀ d ∈ positions, occurs name d) :
    FailsOnly (Error.Staged occurs) (c.expand st) := by
  obtain ⟨_, hbody, hconditions⟩ := bind_eq_ok.mp h
  obtain ⟨_, hleft, hright⟩ := bind_eq_ok.mp hbody
  refine expand_failsOnly (fun _ hp => hp.plain.staged occurs) (fun scope _ => ?_)
    fun d hd scope _ => ?_
  · refine Comparison.eval_failsOnly (Expr.eval_staged hleft ?_ scope)
      (Expr.eval_staged hright ?_ scope)
    · exact hoccurs _ List.mem_cons_self
    · exact hoccurs _ (List.mem_cons_of_mem _ List.mem_cons_self)
  · obtain ⟨q, hq, hd⟩ := List.mem_filterMap.mp hd
    have hcheck : d.checkIndex = .ok () := by
      have hcondition := forM_eq_ok.mp hconditions q hq
      rwa [hd] at hcondition
    obtain ⟨r, hfails, hr⟩ := Condition.eval_index hcheck scope
    rw [hr]
    exact hfails.imp fun _ hscalars => hscalars.plain.staged occurs

end

end Milp
