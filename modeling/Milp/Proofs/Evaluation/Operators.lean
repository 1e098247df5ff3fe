import Milp.Proofs.Evaluation.Terms
import Milp.Proofs.Expr.Induction

/-! What operators, sums and references give when they succeed: a host value that is computed from
host values, or a symbolic node over operands of which at least one is symbolic. What these cases
keep holds for every result of evaluation. -/
namespace Milp

variable {V : Type}

namespace Resolved

variable {scope : Scope}

/-- A value that can stand in a symbolic expression is symbolic or a number. -/
theorem lift_cases {op : String} {v : Resolved V} {s : Symbolic V} (h : v.lift op scope = .ok s) :
    v = symbolic s ∨ ∃ n, v = host (.ofNumber n) ∧ s = .const n := by
  match v with
  | symbolic e =>
    cases h
    exact .inl rfl
  | host (.int n) =>
    cases h
    exact .inr ⟨.int n, rfl, rfl⟩
  | host (.float x) =>
    cases h
    exact .inr ⟨.float x, rfl, rfl⟩
  | host (.str t) => cases h

theorem unary_cases {op : UnaryOp} {v r : Resolved V} (h : v.unary op scope = .ok r) :
    (∃ a b, v = host a ∧ a.unary op scope = .ok b ∧ r = host b) ∨
    ∃ e, v = symbolic e ∧ r = symbolic (if op = .negate then .neg e else .call op e) := by
  cases v with
  | host a =>
    obtain ⟨b, hb, hr⟩ := bind_eq_ok.mp h
    exact .inl ⟨a, b, rfl, hb, (Except.ok.inj hr).symm⟩
  | symbolic e =>
    refine .inr ⟨e, rfl, ?_⟩
    cases op <;> exact (Except.ok.inj h).symm

theorem binary_cases {op : BinaryOp} {l r v : Resolved V} (h : binary op scope l r = .ok v) :
    (∃ a b c, l = host a ∧ r = host b ∧ a.binary op b scope = .ok c ∧ v = host c) ∨
    ((∃ e, l = symbolic e ∨ r = symbolic e) ∧ ∃ x y, l.lift op.name scope = .ok x ∧
      r.lift op.name scope = .ok y ∧ v = symbolic (node op x y)) := by
  have hmixed (hl : (do
      let x ← l.lift op.name scope
      let y ← r.lift op.name scope
      return symbolic (node op x y)) = (.ok v : Except Error (Resolved V))) :
      ∃ x y, l.lift op.name scope = .ok x ∧ r.lift op.name scope = .ok y ∧
        v = symbolic (node op x y) := by
    obtain ⟨x, hx, h⟩ := bind_eq_ok.mp hl
    obtain ⟨y, hy, h⟩ := bind_eq_ok.mp h
    exact ⟨x, y, hx, hy, (Except.ok.inj h).symm⟩
  cases l with
  | symbolic e => exact .inr ⟨⟨e, .inl rfl⟩, hmixed h⟩
  | host a =>
    cases r with
    | symbolic e => exact .inr ⟨⟨e, .inr rfl⟩, hmixed h⟩
    | host b =>
      obtain ⟨c, hc, hv⟩ := bind_eq_ok.mp h
      exact .inl ⟨a, b, c, rfl, rfl, hc, (Except.ok.inj hv).symm⟩

theorem hosts?_eq_some {vs : List (Resolved V)} {ss : List Scalar} (h : hosts? vs = some ss) :
    vs = ss.map host := by
  induction vs generalizing ss with
  | nil =>
    cases h
    rfl
  | cons v vs ih =>
    cases v with
    | symbolic e => simp [hosts?] at h
    | host s =>
      obtain ⟨ts, hts, rfl⟩ := Option.map_eq_some_iff.mp h
      rw [List.map_cons, ih hts]

theorem hosts?_eq_none {vs : List (Resolved V)} (h : hosts? vs = none) :
    ∃ e, symbolic e ∈ vs := by
  induction vs with
  | nil => cases h
  | cons v vs ih =>
    cases v with
    | symbolic e => exact ⟨e, List.mem_cons_self⟩
    | host s =>
      obtain ⟨e, he⟩ := ih (Option.map_eq_none_iff.mp h)
      exact ⟨e, List.mem_cons_of_mem _ he⟩

/-- Adding up ends in one of four ways: there is no term, one term, or at least two of which all are
host values or one is not. -/
theorem sum_cases {vs : List (Resolved V)} {r : Resolved V} (h : sum scope vs = .ok r) :
    (vs = [] ∧ r = host (.int 0)) ∨ vs = [r] ∨
    (2 ≤ vs.length ∧ ∃ (ss : List Scalar) (total : Scalar), vs = ss.map host ∧
      ss.foldlM (fun total s => Scalar.binary .add total s scope) (.int 0) = Except.ok total ∧
      r = host total) ∨
    (2 ≤ vs.length ∧ (∃ e, symbolic e ∈ vs) ∧ ∃ es,
      List.Forall₂ (fun v e => v.lift Aggregator.sum.name scope = .ok e) vs es ∧
      r = symbolic (.sum es)) := by
  match vs with
  | [] => exact .inl ⟨rfl, (Except.ok.inj h).symm⟩
  | [v] => exact .inr (.inl (congrArg (fun u => [u]) (Except.ok.inj h)))
  | u :: v :: vs =>
    have hlength : 2 ≤ (u :: v :: vs).length := by simp
    simp only [sum] at h
    cases hhosts : hosts? (u :: v :: vs) with
    | some ss =>
      simp only [hhosts] at h
      obtain ⟨total, htotal, hr⟩ := bind_eq_ok.mp h
      exact .inr (.inr (.inl ⟨hlength, ss, total, hosts?_eq_some hhosts, htotal,
        (Except.ok.inj hr).symm⟩))
    | none =>
      simp only [hhosts] at h
      obtain ⟨es, hes, hr⟩ := bind_eq_ok.mp h
      exact .inr (.inr (.inr ⟨hlength, hosts?_eq_none hhosts, es, mapM_eq_ok.mp hes,
        (Except.ok.inj hr).symm⟩))

theorem sum_hosts_cases {ss : List Scalar} {r : Resolved V}
    (h : sum scope (ss.map host) = .ok r) :
    (ss = [] ∧ r = host (.int 0)) ∨ (∃ s, ss = [s] ∧ r = host s) ∨
    (2 ≤ ss.length ∧ ∃ total : Scalar,
      ss.foldlM (fun total s => Scalar.binary .add total s scope) (.int 0) = Except.ok total ∧
      r = host total) := by
  rcases sum_cases h with ⟨hss, rfl⟩ | hss | ⟨hlength, ts, total, hts, htotal, rfl⟩ | ⟨-, ⟨e, he⟩, -⟩
  · exact .inl ⟨List.map_eq_nil_iff.mp hss, rfl⟩
  · obtain ⟨s, rfl, rfl⟩ := List.map_eq_singleton_iff.mp hss
    exact .inr (.inl ⟨s, rfl, rfl⟩)
  · have hinjective : Function.Injective (host : Scalar → Resolved V) := fun _ _ => host.inj
    cases List.map_injective_iff.mpr hinjective hts
    rw [List.length_map] at hlength
    exact .inr (.inr ⟨hlength, total, htotal, rfl⟩)
  · obtain ⟨s, -, hs⟩ := List.mem_map.mp he
    cases hs

end Resolved

theorem Setting.lookup_cases {st : Setting V} {kind : RefKind} {name : String} {index : Tuple}
    {scope : Scope} {r : Resolved V} (h : st.lookup kind name index scope = .ok r) :
    (kind = .variable ∧ ∃ v, st.handle name index = some v ∧ r = .symbolic (.var v)) ∨
    (kind = .parameter ∧ ∃ n, ((st.parameters.get? name).bind fun p => p.get? index) = some n ∧
      r = .host (.ofNumber n)) := by
  cases kind with
  | «variable» =>
    rw [lookup] at h
    cases hv : st.handle name index with
    | none => simp [hv] at h
    | some v =>
      rw [hv] at h
      exact .inl ⟨rfl, v, rfl, (Except.ok.inj h).symm⟩
  | parameter =>
    rw [lookup] at h
    cases hn : (st.parameters.get? name).bind fun p => p.get? index with
    | none => simp [hn] at h
    | some n =>
      rw [hn] at h
      exact .inr ⟨rfl, n, rfl, (Except.ok.inj h).symm⟩

/-- A reference to a variable that is evaluated has as many index positions as the declaration. -/
theorem Setting.exists_of_checkArity {st : Setting V} {name : String} {found : Nat} {scope : Scope}
    (h : st.checkArity .variable name found scope = .ok ()) :
    ∃ x, st.vars.get? name = some x ∧ x.dimension = found := by
  rw [checkArity, dimension] at h
  cases hx : st.vars.get? name with
  | none => simp [hx] at h
  | some x =>
    simp only [hx] at h
    split at h
    · cases h
    · exact ⟨x, rfl, by omega⟩

theorem Expr.length_evalPositions {st : Setting V} {scope : Scope} {name : String}
    {positions : List Expr} {index : Tuple}
    (h : evalPositions st scope name positions = .ok index) :
    index.length = positions.length := by
  induction positions generalizing index with
  | nil =>
    cases h
    rfl
  | cons e es ih =>
    rw [evalPositions] at h
    obtain ⟨_, _, h⟩ := bind_eq_ok.mp h
    obtain ⟨x, _, h⟩ := bind_eq_ok.mp h
    obtain ⟨xs, hxs, h⟩ := bind_eq_ok.mp h
    cases h
    rw [List.length_cons, List.length_cons, ih hxs]

/-- Positions that evaluate one by one to elements make up their tuple. -/
theorem Expr.evalPositions_elements {st : Setting V} {scope : Scope} (name : String)
    {positions : List Expr} {t : Tuple}
    (h : List.Forall₂ (fun e x => e.eval st scope = .ok (.host (.ofElement x))) positions t) :
    evalPositions st scope name positions = .ok t := by
  induction h with
  | nil => rfl
  | @cons e x positions t hx _ ih =>
    have hposition :
        Resolved.position name e scope (.host (.ofElement x) : Resolved V) = .ok x := by
      cases x <;> rfl
    rw [evalPositions, hx, ok_bind, hposition, ok_bind, ih]
    rfl

/-- A property of values holds for every result of evaluation when host values have it, references
have it, and operators and sums keep it. -/
theorem Expr.result_induction {st : Setting V} {motive : Resolved V → Prop}
    (host : ∀ s, motive (.host s))
    (reference : ∀ {kind name index scope r},
      st.checkArity kind name (List.length index) scope = .ok () →
      st.lookup kind name index scope = .ok r → motive r)
    (unary : ∀ {op scope v r}, v.unary op scope = .ok r → motive v → motive r)
    (binary : ∀ {op scope l r v}, Resolved.binary op scope l r = .ok v → motive l → motive r →
      motive v)
    (sum : ∀ {scope vs r}, Resolved.sum scope vs = .ok r → (∀ v ∈ vs, motive v) → motive r)
    (e : Expr) {scope : Scope} {r : Resolved V} (h : e.eval st scope = .ok r) : motive r := by
  induction e generalizing scope r with
  | number n =>
    cases h
    exact host _
  | string s =>
    cases h
    exact host _
  | indexVar name =>
    rw [eval] at h
    cases hx : scope.get? name with
    | none => simp [hx] at h
    | some x =>
      rw [hx] at h
      cases h
      exact host _
  | ref kind name =>
    rw [eval] at h
    obtain ⟨harity, h⟩ := check_bind_eq_ok.mp h
    exact reference harity h
  | refAt kind name positions _ =>
    rw [eval] at h
    obtain ⟨harity, h⟩ := check_bind_eq_ok.mp h
    obtain ⟨index, hindex, h⟩ := bind_eq_ok.mp h
    rw [← length_evalPositions hindex] at harity
    exact reference harity h
  | unary op e ih =>
    rw [eval] at h
    obtain ⟨v, hv, h⟩ := bind_eq_ok.mp h
    exact unary h (ih hv)
  | binary op l r ihl ihr =>
    rw [eval] at h
    obtain ⟨a, ha, h⟩ := bind_eq_ok.mp h
    obtain ⟨b, hb, h⟩ := bind_eq_ok.mp h
    exact binary h (ihl ha) (ihr hb)
  | aggregate op body ranges condition ih _ =>
    rw [eval] at h
    obtain ⟨_, axes, vs, _, hvs, hsum⟩ := Aggregation.eval_eq_ok h
    refine sum hsum fun v hv => ?_
    obtain ⟨t, ht⟩ := Aggregation.exists_of_mem_terms hvs hv
    exact ih ht

end Milp
