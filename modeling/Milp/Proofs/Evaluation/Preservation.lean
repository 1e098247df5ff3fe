import Milp.Expr.Builder
import Milp.Proofs.Evaluation.Meaning
import Milp.Proofs.Evaluation.Operators
import Milp.Proofs.Expr.Induction
import Milp.Proofs.Scalar.Arithmetic

/-! Evaluation preserves meaning: as long as the operations that it carries out at once stay
within the integers, the value of a result under any valuation is the meaning of the expression.
Nothing is claimed once an operation at evaluation time gives a float, since double arithmetic
rounds. -/
namespace Milp

variable {V : Type} (ρ : Valuation V)

private theorem Fold.exists_int {operands : List Scalar} {result : Scalar}
    (h : Fold.isIntegral ⟨operands, result⟩ = true) :
    (∀ s ∈ operands, ∃ n, s = .int n) ∧ ∃ n, result = .int n := by
  have hint (s : Scalar) (hs : s.int?.isSome = true) : ∃ n, s = .int n := by
    cases s with
    | int n => exact ⟨n, rfl⟩
    | float x => simp [Scalar.int?] at hs
    | str x => simp [Scalar.int?] at hs
  simp only [Fold.isIntegral, Bool.and_eq_true, List.all_eq_true] at h
  exact ⟨fun s hs => hint s (h.1 s hs), hint _ h.2⟩

namespace Scalar

/-- An integral fold of a unary operator is exact. -/
theorem value_unary {op : UnaryOp} {scope : Scope} {s r : Scalar} (h : s.unary op scope = .ok r)
    (hfold : Fold.isIntegral ⟨[s], r⟩ = true) :
    ρ.scalar? r = (ρ.scalar? s).map (ρ.unary op) := by
  obtain ⟨hs, n, rfl⟩ := Fold.exists_int hfold
  obtain ⟨a, rfl⟩ := hs s (by simp)
  cases op with
  | negate =>
    simp only [Scalar.unary] at h
    cases hneg : int64? (-a.toInt) with
    | none => simp [hneg] at h
    | some m =>
      rw [hneg, Except.ok.injEq, Scalar.int.injEq] at h
      simp [Valuation.scalar?, Valuation.unary, ← h, int64?_eq_some.mp hneg]
  | _ => simp [Scalar.unary] at h

/-- An integral fold of a binary operator is exact. -/
theorem value_binary {op : BinaryOp} {scope : Scope} {a b : Int64} {r : Scalar}
    (h : (int a).binary op (int b) scope = .ok r)
    (hfold : Fold.isIntegral ⟨[int a, int b], r⟩ = true) :
    ρ.scalar? r = some (ρ.binary op a.toInt b.toInt) := by
  obtain ⟨-, n, rfl⟩ := Fold.exists_int hfold
  simp only [Scalar.binary] at h
  cases hint : integral op a b with
  | none =>
    rw [hint] at h
    cases op <;> simp only [floating] at h
    all_goals (try split at h) <;> simp at h
  | some m =>
    rw [hint, Except.ok.injEq, Scalar.int.injEq] at h
    subst h
    cases op with
    | div => simp [integral, exactResult?] at hint
    | _ =>
      simp only [integral, exactResult?] at hint
      simp [Valuation.scalar?, Valuation.binary, int64?_eq_some.mp hint]

end Scalar

namespace Symbolic

theorem total_eq_sum (ts : List (Symbolic V)) : total ρ ts = (ts.map (value ρ)).sum := by
  induction ts with
  | nil => rfl
  | cons t ts ih => simp [total, ih]

end Symbolic

theorem Valuation.scalar?_ofNumber (n : Number) : ρ.scalar? (.ofNumber n) = some (ρ.number n) := by
  cases n <;> rfl

theorem Valuation.sum?_map_some {α : Type} (f : α → ℚ) (as : List α) :
    sum? (as.map fun a => some (f a)) = some (as.map f).sum := by
  induction as with
  | nil => rfl
  | cons a as ih => simp [sum?, ih]

namespace Resolved

/-- A value that can stand in a symbolic expression keeps its value there. -/
theorem value?_of_lift {op : String} {scope : Scope} {r : Resolved V} {s : Symbolic V}
    (h : r.lift op scope = .ok s) : r.value? ρ = some (s.value ρ) := by
  rcases lift_cases h with rfl | ⟨n, rfl, rfl⟩
  · rw [value?]
  · rw [value?, Symbolic.value, ρ.scalar?_ofNumber]

theorem value?_unary {op : UnaryOp} {scope : Scope} {v r : Resolved V}
    (h : v.unary op scope = .ok r)
    (hfolds : ∀ f ∈ unaryFolds op scope (.ok v), f.isIntegral = true) :
    r.value? ρ = (v.value? ρ).map (ρ.unary op) := by
  cases v with
  | host s =>
    obtain ⟨a, ha, hr⟩ := bind_eq_ok.mp h
    cases hr
    exact Scalar.value_unary ρ ha (hfolds _ (by simp [unaryFolds, ha]))
  | symbolic e =>
    cases op <;> cases h <;> rfl

theorem value_node (op : BinaryOp) (l r : Symbolic V) :
    (node op l r).value ρ = ρ.binary op (l.value ρ) (r.value ρ) := by
  cases op <;> simp [node, Symbolic.value, Symbolic.total, Valuation.binary]

theorem value?_binary {op : BinaryOp} {scope : Scope} {l r v : Resolved V}
    (h : binary op scope l r = .ok v)
    (hfolds : ∀ f ∈ binaryFolds op scope (.ok l) (.ok r), f.isIntegral = true) :
    ∃ x y, l.value? ρ = some x ∧ r.value? ρ = some y ∧ v.value? ρ = some (ρ.binary op x y) := by
  rcases binary_cases h with ⟨a, b, c, rfl, rfl, hc, rfl⟩ | ⟨_, x, y, hx, hy, rfl⟩
  · have hfold := hfolds ⟨[a, b], c⟩ (by simp [binaryFolds, hc])
    obtain ⟨hints, -⟩ := Fold.exists_int hfold
    obtain ⟨m, rfl⟩ := hints a (by simp)
    obtain ⟨n, rfl⟩ := hints b (by simp)
    exact ⟨m.toInt, n.toInt, rfl, rfl, Scalar.value_binary ρ hc hfold⟩
  · refine ⟨_, _, value?_of_lift ρ hx, value?_of_lift ρ hy, ?_⟩
    rw [value?, value_node]

private theorem value_foldlM {scope : Scope} {total r : Scalar} {ss : List Scalar} {x : ℚ}
    (h : ss.foldlM (fun total s => total.binary .add s scope) total = .ok r)
    (hfolds : ∀ f ∈ totalFolds scope total ss, f.isIntegral = true)
    (hx : ρ.scalar? total = some x) :
    ∃ y, Valuation.sum? (ss.map ρ.scalar?) = some y ∧ ρ.scalar? r = some (x + y) := by
  induction ss generalizing total x with
  | nil =>
    cases h
    exact ⟨0, rfl, by simpa using hx⟩
  | cons s ss ih =>
    rw [List.foldlM_cons] at h
    obtain ⟨next, hnext, hrest⟩ := bind_eq_ok.mp h
    rw [totalFolds, hnext] at hfolds
    -- The running total and the next term are integers, so adding them is exact.
    have hfold := hfolds ⟨[total, s], next⟩ (by simp)
    obtain ⟨hints, -⟩ := Fold.exists_int hfold
    obtain ⟨m, rfl⟩ := hints total (by simp)
    obtain ⟨n, rfl⟩ := hints s (by simp)
    have hadd := Scalar.value_binary ρ hnext hfold
    obtain ⟨y, hy, hr⟩ := ih hrest (fun f hf => hfolds f (List.mem_cons_of_mem _ hf)) hadd
    cases hx
    refine ⟨n.toInt + y, ?_, ?_⟩
    · simp [Valuation.sum?, Valuation.scalar?, hy]
    · rw [hr, Valuation.binary, add_assoc]

private theorem value?_lifted {op : String} {scope : Scope} {vs : List (Resolved V)}
    {es : List (Symbolic V)} (h : List.Forall₂ (fun v e => v.lift op scope = .ok e) vs es) :
    vs.map (value? ρ) = es.map fun e => some (e.value ρ) := by
  induction h with
  | nil => rfl
  | cons he _ ih => rw [List.map_cons, List.map_cons, value?_of_lift ρ he, ih]

/-- Adding up evaluated terms gives the sum of their values. -/
theorem value?_sum {scope : Scope} {vs : List (Resolved V)} {r : Resolved V}
    (h : sum scope vs = .ok r) (hfolds : ∀ f ∈ sumFolds scope (.ok vs), f.isIntegral = true) :
    r.value? ρ = Valuation.sum? (vs.map (value? ρ)) := by
  match vs with
  | [] =>
    cases h
    simp [value?, Valuation.scalar?, Valuation.sum?]
  | [v] =>
    cases h
    cases hv : r.value? ρ <;> simp [Valuation.sum?, hv]
  | u :: v :: vs =>
    simp only [sum] at h
    simp only [sumFolds] at hfolds
    cases hhosts : hosts? (u :: v :: vs) with
    | some ss =>
      simp only [hhosts] at h hfolds
      obtain ⟨total, htotal, hr⟩ := bind_eq_ok.mp h
      cases hr
      obtain ⟨y, hy, hval⟩ := value_foldlM ρ htotal hfolds (x := 0) (by simp [Valuation.scalar?])
      rw [hosts?_eq_some hhosts, List.map_map, value?, hval, zero_add, ← hy]
      rfl
    | none =>
      simp only [hhosts] at h
      obtain ⟨es, hes, hr⟩ := bind_eq_ok.mp h
      cases hr
      rw [value?_lifted ρ (mapM_eq_ok.mp hes), Valuation.sum?_map_some, value?, Symbolic.value,
        Symbolic.total_eq_sum]

end Resolved

/-- The terms of a sum are the values of its body at the tuples that it ranges over. -/
theorem Aggregation.forall₂_of_terms {st : Setting V} {scope : Scope} {body : Expr}
    {ranges : List Range} {condition : Option (Comparison Expr)} {ts : List Tuple}
    {vs : List (Resolved V)} (h : terms st scope body ranges condition ts = .ok vs) :
    List.Forall₂ (fun t v => body.eval st (inner scope ranges t) = .ok v)
      (ts.filter (admits st scope ranges condition)) vs := by
  induction ts generalizing vs with
  | nil =>
    cases h
    exact .nil
  | cons t ts ih =>
    rw [terms] at h
    obtain ⟨admitted, hadmitted, h⟩ := bind_eq_ok.mp h
    have hadmits : admits st scope ranges condition t = admitted := by rw [admits, hadmitted]
    cases admitted with
    | false =>
      rw [List.filter_cons_of_neg (by simp [hadmits])]
      exact ih h
    | true =>
      rw [List.filter_cons_of_pos hadmits]
      rw [if_pos rfl] at h
      obtain ⟨v, hv, h⟩ := bind_eq_ok.mp h
      obtain ⟨ws, hws, h⟩ := bind_eq_ok.mp h
      cases h
      exact .cons hv (ih hws)

/-- The values of the terms of a sum are the meanings of its body at the tuples that it ranges
over. -/
private theorem value?_terms {st : Setting V} {scope : Scope} {body : Expr} {ranges : List Range}
    {condition : Option (Comparison Expr)}
    (hbody : ∀ scope r, body.eval st scope = .ok r →
      (∀ f ∈ body.folds st scope, f.isIntegral = true) → r.value? ρ = body.meaning ρ st scope)
    {ts : List Tuple} {vs : List (Resolved V)}
    (h : Aggregation.terms st scope body ranges condition ts = .ok vs)
    (hfolds : ∀ t ∈ ts.filter (Aggregation.admits st scope ranges condition),
      ∀ f ∈ body.folds st (Aggregation.inner scope ranges t), f.isIntegral = true) :
    vs.map (Resolved.value? ρ) =
      (ts.filter (Aggregation.admits st scope ranges condition)).map fun t =>
        body.meaning ρ st (Aggregation.inner scope ranges t) := by
  have hvs := Aggregation.forall₂_of_terms h
  clear h
  generalize ts.filter (Aggregation.admits st scope ranges condition) = us at hvs hfolds ⊢
  induction hvs with
  | nil => rfl
  | cons hv _ ih =>
    rw [List.forall_mem_cons] at hfolds
    rw [List.map_cons, List.map_cons, hbody _ _ hv hfolds.1, ih hfolds.2]

/-- What a reference evaluates to at a tuple has the value that it stands for there. -/
theorem Setting.value?_lookup {st : Setting V} {kind : RefKind} {name : String} {index : Tuple}
    {scope : Scope} {r : Resolved V} (h : st.lookup kind name index scope = .ok r) :
    r.value? ρ = ρ.reference? st kind name index := by
  rcases lookup_cases h with ⟨rfl, v, hv, rfl⟩ | ⟨rfl, n, hn, rfl⟩
  · rw [Resolved.value?, Symbolic.value, Valuation.reference?, hv, Option.map_some]
  · rw [Resolved.value?, Valuation.reference?, hn, Option.map_some, ρ.scalar?_ofNumber]

/-- The folds of an aggregation are those of the body at the tuples that it ranges over, and those of
adding its terms up. -/
theorem Aggregation.mem_folds {st : Setting V} {scope : Scope} {op : Aggregator} {body : Expr}
    {ranges : List Range} {condition : Option (Comparison Expr)} {axes : List (List Element)}
    {vs : List (Resolved V)} (haxes : st.axes (ranges.map Range.set) = .ok axes)
    (hvs : terms st scope body ranges condition (tuples axes) = .ok vs) {f : Fold} :
    f ∈ folds st scope ⟨op, body, ranges, condition⟩ ↔
      (∃ t ∈ (tuples axes).filter (admits st scope ranges condition),
        f ∈ body.folds st (inner scope ranges t)) ∨ f ∈ Resolved.sumFolds scope (.ok vs) := by
  rw [folds, haxes]
  simp only [hvs, List.mem_append, List.mem_flatMap]

/-- The value of a sum is its meaning when evaluation preserves the meaning of the body. -/
private theorem Aggregation.value?_eval {st : Setting V} {scope : Scope} {op : Aggregator}
    {body : Expr} {ranges : List Range} {condition : Option (Comparison Expr)} {r : Resolved V}
    (hbody : ∀ scope r, body.eval st scope = .ok r →
      (∀ f ∈ body.folds st scope, f.isIntegral = true) → r.value? ρ = body.meaning ρ st scope)
    (h : Aggregation.eval st scope ⟨op, body, ranges, condition⟩ = .ok r)
    (hfolds : ∀ f ∈ Aggregation.folds st scope ⟨op, body, ranges, condition⟩,
      f.isIntegral = true) :
    r.value? ρ = Aggregation.meaning ρ st scope ⟨op, body, ranges, condition⟩ := by
  obtain ⟨rfl, axes, vs, haxes, hvs, hsum⟩ := eval_eq_ok h
  have hterms := value?_terms ρ hbody hvs fun t ht f hf =>
    hfolds f ((mem_folds haxes hvs).mpr (.inl ⟨t, ht, hf⟩))
  have htotal := Resolved.value?_sum ρ hsum fun f hf =>
    hfolds f ((mem_folds haxes hvs).mpr (.inr hf))
  rw [htotal, hterms, Aggregation.meaning, haxes]

private theorem value?_eval (st : Setting V) (e : Expr) : ∀ scope r, e.eval st scope = .ok r →
    (∀ f ∈ e.folds st scope, f.isIntegral = true) → r.value? ρ = e.meaning ρ st scope := by
  induction e with
  | number n =>
    intro scope r h _
    cases h
    exact ρ.scalar?_ofNumber n
  | string s =>
    intro scope r h _
    cases h
    rfl
  | indexVar name =>
    intro scope r h _
    rw [Expr.eval] at h
    rw [Expr.meaning]
    cases hx : scope.get? name with
    | none => simp [hx] at h
    | some x =>
      rw [hx] at h
      cases h
      rfl
  | ref kind name =>
    intro scope r h _
    rw [Expr.eval] at h
    obtain ⟨_, _, h⟩ := bind_eq_ok.mp h
    exact Setting.value?_lookup ρ h
  | refAt kind name positions _ =>
    intro scope r h _
    rw [Expr.eval] at h
    obtain ⟨_, _, h⟩ := bind_eq_ok.mp h
    obtain ⟨index, hindex, h⟩ := bind_eq_ok.mp h
    rw [Expr.meaning, hindex]
    exact Setting.value?_lookup ρ h
  | unary op e ih =>
    intro scope r h hfolds
    rw [Expr.eval] at h
    obtain ⟨v, hv, h⟩ := bind_eq_ok.mp h
    simp only [Expr.folds, hv, List.mem_append] at hfolds
    rw [Resolved.value?_unary ρ h fun f hf => hfolds f (.inr hf),
      ih scope v hv fun f hf => hfolds f (.inl hf), Expr.meaning]
    cases e.meaning ρ st scope <;> rfl
  | binary op l r ihl ihr =>
    intro scope v h hfolds
    rw [Expr.eval] at h
    obtain ⟨a, ha, h⟩ := bind_eq_ok.mp h
    obtain ⟨b, hb, h⟩ := bind_eq_ok.mp h
    simp only [Expr.folds, ha, hb, List.mem_append] at hfolds
    obtain ⟨x, y, hx, hy, hv⟩ := Resolved.value?_binary ρ h fun f hf => hfolds f (.inr hf)
    rw [Expr.meaning, ← ihl scope a ha fun f hf => hfolds f (.inl (.inl hf)),
      ← ihr scope b hb fun f hf => hfolds f (.inl (.inr hf)), hx, hy, hv]
    rfl
  | aggregate op body ranges condition ihbody _ =>
    intro scope r h hfolds
    rw [Expr.eval] at h
    rw [Expr.folds] at hfolds
    rw [Expr.meaning]
    exact Aggregation.value?_eval ρ ihbody h hfolds

theorem Resolved.exists_value? {r : Resolved V} (h : ∀ s, r ≠ .host (.str s)) :
    ∃ x, r.value? ρ = some x := by
  match r with
  | .symbolic e => exact ⟨_, rfl⟩
  | .host (.int n) => exact ⟨_, rfl⟩
  | .host (.float x) => exact ⟨_, rfl⟩
  | .host (.str s) => exact absurd rfl (h s)

/-- A result that is not a string has, under every valuation, the value that the expression means,
provided that every fold outside index positions and conditions is integral. -/
theorem Expr.value?_eq_meaning (st : Setting V) (scope : Scope) (e : Expr) (r : Resolved V)
    (heval : e.eval st scope = .ok r) (hstring : ∀ s, r ≠ .host (.str s))
    (hfolds : ∀ f ∈ e.folds st scope, f.isIntegral = true) :
    ∃ x, r.value? ρ = some x ∧ e.meaning ρ st scope = some x := by
  obtain ⟨x, hx⟩ := r.exists_value? ρ hstring
  exact ⟨x, hx, by rw [← value?_eval ρ st e scope r heval hfolds, hx]⟩

def triple : Setting Tuple where
  sets := ⟨[⟨"I", [.int 1, .int 2, .int 3]⟩]⟩
  parameters := ⟨[⟨"c", [], .scalar (.int 5)⟩]⟩
  vars := ⟨[{ name := "x", indices := ["I"] }]⟩
  handle name t := if name = "x" then some t else none

def weighted : Expr :=
  .var "x" [.indexVar "i"] -
    .sum (.var "x" [.indexVar "i"] * (.indexVar "i" + .param "c" [])) [⟨"i", "I"⟩]
      (some (.index (.indexVar "i") .ne (.int 2)))

def weightedResult : Resolved Tuple :=
  .symbolic (.difference (.var [.int 2]) (.sum [
    .product (.var [.int 1]) (.const (.int 6)),
    .product (.var [.int 3]) (.const (.int 8))]))

def byLength : Valuation Tuple := ⟨fun t => t.length, fun _ => 0, fun x y => x / y, fun _ x => x⟩

theorem Expr.value?_eq_meaning_weighted :
    weighted.eval triple [[("i", .int 2)]] = .ok weightedResult ∧
    (∀ s, weightedResult ≠ .host (.str s)) ∧
    (∀ f ∈ weighted.folds triple [[("i", .int 2)]], f.isIntegral = true) ∧
    ∃ x, weightedResult.value? byLength = some x ∧
      weighted.meaning byLength triple [[("i", .int 2)]] = some x := by
  have heval : weighted.eval triple [[("i", .int 2)]] = .ok weightedResult := rfl
  have hfolds : ∀ f ∈ weighted.folds triple [[("i", .int 2)]], f.isIntegral = true := by decide
  exact ⟨heval, nofun, hfolds,
    value?_eq_meaning byLength triple _ weighted weightedResult heval nofun hfolds⟩

end Milp
