import Milp.Expr.Builder
import Milp.Proofs.Evaluation.Handles

/-! Shape of symbolic results. What can be computed on the host is computed there: in a symbolic
result every inner node has an operand with a handle, so that a part without handles is a single
constant beside such an operand. A value is therefore a host value exactly when it has no handles. -/
namespace Milp

variable {V : Type}

namespace Symbolic

def children : Symbolic V → List (Symbolic V)
  | var _ => []
  | const _ => []
  | sum ts => ts
  | difference l r => [l, r]
  | product l r => [l, r]
  | quotient l r => [l, r]
  | neg e => [e]
  | call _ e => [e]

inductive Within (d : Symbolic V) : Symbolic V → Prop
  | refl : Within d d
  | child {c s : Symbolic V} : c ∈ s.children → Within d c → Within d s

/-- Whether nothing is left to compute before the decision variables have values. -/
structure WellShaped (s : Symbolic V) : Prop where
  hasVars : s.vars ≠ []
  /-- A node that is not a leaf has an operand with a handle. -/
  inner : ∀ d : Symbolic V, d.Within s → d.children ≠ [] → ∃ c ∈ d.children, c.vars ≠ []
  sums : ∀ ts, (sum ts).Within s → 2 ≤ ts.length

/-- The handles of a node with operands are those of its operands. -/
theorem vars_eq_flatMap_children {s : Symbolic V} (h : s.children ≠ []) :
    s.vars = s.children.flatMap vars := by
  cases s with
  | var v => exact absurd rfl h
  | const n => exact absurd rfl h
  | sum ts => exact varsAll_eq_flatMap ts
  | _ => simp [vars, children]

theorem vars_ne_nil_of_child {c s : Symbolic V} (hc : c ∈ s.children) (hvars : c.vars ≠ []) :
    s.vars ≠ [] := by
  rw [vars_eq_flatMap_children (List.ne_nil_of_mem hc)]
  intro hnil
  exact hvars (List.flatMap_eq_nil_iff.mp hnil c hc)

theorem within_const {d : Symbolic V} {n : Number} (h : d.Within (const n)) : d = const n := by
  cases h with
  | refl => rfl
  | child hc _ => cases hc

theorem wellShaped_var (v : V) : (var v).WellShaped where
  hasVars := List.cons_ne_nil v []
  inner d hd hne := by
    cases hd with
    | refl => exact absurd rfl hne
    | child hc _ => cases hc
  sums ts hd := by
    cases hd with
    | child hc _ => cases hc

/-- A node over well-shaped operands and constants is well shaped when one operand is no constant. -/
theorem wellShaped_of_children {s : Symbolic V}
    (hchildren : ∀ c ∈ s.children, c.WellShaped ∨ ∃ n, c = const n)
    (hsome : ∃ c ∈ s.children, c.WellShaped) (hsum : ∀ ts, s = sum ts → 2 ≤ ts.length) :
    s.WellShaped where
  hasVars := by
    obtain ⟨c, hc, hshape⟩ := hsome
    exact vars_ne_nil_of_child hc hshape.hasVars
  inner d hd hne := by
    cases hd with
    | refl =>
      obtain ⟨c, hc, hshape⟩ := hsome
      exact ⟨c, hc, hshape.hasVars⟩
    | child hc hd =>
      rcases hchildren _ hc with hshape | ⟨n, rfl⟩
      · exact hshape.inner d hd hne
      · rw [within_const hd] at hne
        exact absurd rfl hne
  sums ts hd := by
    generalize hs : sum ts = d at hd
    cases hd with
    | refl => exact hsum ts hs.symm
    | child hc hd =>
      rcases hchildren _ hc with hshape | ⟨n, rfl⟩
      · exact hshape.sums ts (hs ▸ hd)
      · rw [within_const hd] at hs
        cases hs

namespace WellShaped

variable {s : Symbolic V}

/-- A part without handles is a constant. -/
theorem eq_const (h : s.WellShaped) {c : Symbolic V} (hc : c.Within s) (hvars : c.vars = []) :
    ∃ n, c = const n := by
  by_cases hchildren : c.children = []
  · cases c with
    | const n => exact ⟨n, rfl⟩
    | var v => cases hvars
    | sum ts =>
      have hlength := h.sums ts hc
      rw [show ts = [] from hchildren] at hlength
      cases hlength
    | _ => cases hchildren
  · obtain ⟨d, hd, hne⟩ := h.inner c hc hchildren
    exact absurd hvars (vars_ne_nil_of_child hd hne)

/-- No function is left to apply to a constant, negation included. -/
theorem vars_operand (h : s.WellShaped) {d e : Symbolic V} (hd : d.Within s)
    (hchildren : d.children = [e]) : e.vars ≠ [] := by
  obtain ⟨c, hc, hne⟩ := h.inner d hd (by rw [hchildren]; exact List.cons_ne_nil _ _)
  rw [hchildren, List.mem_singleton] at hc
  exact hc ▸ hne

end WellShaped

end Symbolic

namespace Resolved

variable {scope : Scope}

def WellShaped : Resolved V → Prop
  | host _ => True
  | symbolic e => e.WellShaped

theorem WellShaped.lift {op : String} {v : Resolved V} {s : Symbolic V} (hv : v.WellShaped)
    (h : v.lift op scope = .ok s) : s.WellShaped ∨ ∃ n, s = .const n := by
  rcases lift_cases h with rfl | ⟨n, rfl, rfl⟩
  · exact .inl hv
  · exact .inr ⟨n, rfl⟩

theorem WellShaped.unary {op : UnaryOp} {v r : Resolved V} (hv : v.WellShaped)
    (h : v.unary op scope = .ok r) : r.WellShaped := by
  rcases unary_cases h with ⟨a, b, rfl, _, rfl⟩ | ⟨e, rfl, rfl⟩
  · trivial
  · have hoperand {s : Symbolic V} (hs : s.children = [e]) (hsum : ∀ ts, s ≠ .sum ts) :
        s.WellShaped := by
      refine Symbolic.wellShaped_of_children ?_ ⟨e, by simp [hs], hv⟩ fun ts h => absurd h (hsum ts)
      intro c hc
      rw [hs, List.mem_singleton] at hc
      exact .inl (hc ▸ hv)
    by_cases hop : op = .negate
    · rw [if_pos hop]
      exact hoperand rfl nofun
    · rw [if_neg hop]
      exact hoperand rfl nofun

theorem children_node (op : BinaryOp) (l r : Symbolic V) : (node op l r).children = [l, r] := by
  cases op <;> rfl

theorem WellShaped.binary {op : BinaryOp} {l r v : Resolved V} (hl : l.WellShaped)
    (hr : r.WellShaped) (h : binary op scope l r = .ok v) : v.WellShaped := by
  rcases binary_cases h with ⟨a, b, c, rfl, rfl, _, rfl⟩ | ⟨⟨e, he⟩, x, y, hx, hy, rfl⟩
  · trivial
  · refine Symbolic.wellShaped_of_children ?_ ?_ ?_
    · rw [children_node]
      simp only [List.forall_mem_cons]
      exact ⟨hl.lift hx, hr.lift hy, nofun⟩
    · rw [children_node]
      rcases he with rfl | rfl
      · cases hx
        exact ⟨e, by simp, hl⟩
      · cases hy
        exact ⟨e, by simp, hr⟩
    · intro ts hts
      have hlength := congrArg (fun s => (Symbolic.children s).length) hts
      rw [children_node] at hlength
      exact hlength.le

theorem WellShaped.sum {vs : List (Resolved V)} {r : Resolved V} (hvs : ∀ v ∈ vs, v.WellShaped)
    (h : sum scope vs = .ok r) : r.WellShaped := by
  rcases sum_cases h with
    ⟨-, rfl⟩ | rfl | ⟨-, ss, total, -, -, rfl⟩ | ⟨hlength, ⟨e, he⟩, es, hes, rfl⟩
  · trivial
  · exact hvs r List.mem_cons_self
  · trivial
  · refine Symbolic.wellShaped_of_children (fun c hc => ?_) ?_ ?_
    · obtain ⟨v, hv, hlift⟩ := exists_of_mem_forall₂ hes.flip hc
      exact (hvs v hv).lift hlift
    · obtain ⟨c, hc, hlift⟩ := exists_of_mem_forall₂ hes he
      cases hlift
      exact ⟨e, hc, hvs _ he⟩
    · rintro ts ⟨⟩
      rwa [← hes.length_eq]

end Resolved

theorem Setting.wellShaped_of_lookup {st : Setting V} {kind : RefKind} {name : String}
    {index : Tuple} {scope : Scope} {r : Resolved V} (h : st.lookup kind name index scope = .ok r) :
    r.WellShaped := by
  rcases lookup_cases h with ⟨rfl, v, _, rfl⟩ | ⟨_, n, _, rfl⟩
  · exact Symbolic.wellShaped_var v
  · trivial

namespace Expr

theorem wellShaped_of_eval {st : Setting V} {e : Expr} {scope : Scope} {r : Resolved V}
    (h : e.eval st scope = .ok r) : r.WellShaped :=
  e.result_induction (fun _ => trivial) (fun _ h => Setting.wellShaped_of_lookup h)
    (fun h hv => hv.unary h) (fun h hl hr => hl.binary hr h)
    (fun h hvs => Resolved.WellShaped.sum hvs h) h

/-- A value is a host value exactly when it has no handles. -/
theorem isHost_iff_of_eval {st : Setting V} {e : Expr} {scope : Scope} {r : Resolved V}
    (h : e.eval st scope = .ok r) : r.isHost = true ↔ r.vars = [] := by
  have hshape := wellShaped_of_eval h
  cases r with
  | host a => exact iff_of_true rfl rfl
  | symbolic s => exact iff_of_false Bool.false_ne_true hshape.hasVars

/-- A symbolic result is well shaped: it has handles, all of them provided by the setting, every part
of it without handles is a constant, and no constant is the only operand of a node. A value is a
host value exactly when it has no handles, and a comparison is one between host values exactly when
neither side has any. -/
theorem eval_shape (st : Setting V) (scope : Scope) :
    (∀ e s, eval st scope e = .ok (.symbolic s) →
      s.WellShaped ∧
      (∀ c : Symbolic V, c.Within s → c.vars = [] → ∃ n, c = .const n) ∧
      (∀ n : Number, ¬ (Symbolic.neg (.const n)).Within s ∧
        ∀ op, ¬ (Symbolic.call op (.const n)).Within s) ∧
      ∀ v ∈ s.vars, st.Provides v) ∧
    (∀ e r, eval st scope e = .ok r → (r.isHost = true ↔ r.vars = [])) ∧
    (∀ c r, Comparison.eval st scope c = .ok r →
      (r.isHost = true ↔ r.left.vars = [] ∧ r.right.vars = [])) := by
  refine ⟨fun e s h => ?_, fun e r h => isHost_iff_of_eval h, fun c r h => ?_⟩
  · have hshape : s.WellShaped := wellShaped_of_eval h
    refine ⟨hshape, fun c hc hvars => hshape.eq_const hc hvars, fun n => ⟨fun hneg => ?_, ?_⟩,
      provides_of_eval h⟩
    · exact hshape.vars_operand hneg rfl rfl
    · intro op hcall
      exact hshape.vars_operand hcall rfl rfl
  · rw [Comparison.eval] at h
    obtain ⟨l, hl, h⟩ := bind_eq_ok.mp h
    obtain ⟨r', hr, h⟩ := bind_eq_ok.mp h
    cases h
    rw [ResolvedComparison.isHost, Bool.and_eq_true, isHost_iff_of_eval hl, isHost_iff_of_eval hr]

end Expr

def periods : Setting Tuple where
  sets := ⟨[⟨"T", [.int 1, .int 2, .int 3]⟩]⟩
  parameters := .empty
  vars := ⟨[{ name := "made", indices := ["T"] }]⟩
  handle name t := if name = "made" then some t else none

/-- Production after the first period, weighted by the sum of the periods before, plus production
after the last period. -/
def late : Expr :=
  .sum (.var "made" [.indexVar "t"] *
      .sum (.indexVar "u") [⟨"u", "T"⟩] (some (.index (.indexVar "u") .lt (.indexVar "t"))))
    [⟨"t", "T"⟩] (some (.index (.indexVar "t") .gt (.int 1))) +
  .sum (.var "made" [.indexVar "t"]) [⟨"t", "T"⟩] (some (.index (.indexVar "t") .gt (.int 3)))

/-- The weights are computed, be they sums of one term or of two, and a sum without terms is a zero
beside the other one. -/
def lateResult : Symbolic Tuple :=
  .sum [
    .sum [.product (.var [.int 2]) (.const (.int 1)), .product (.var [.int 3]) (.const (.int 3))],
    .const (.int 0)]

theorem Expr.eval_shape_late :
    late.eval periods .root = .ok (.symbolic lateResult) ∧
    lateResult.WellShaped ∧
    (∀ v ∈ lateResult.vars, periods.Provides v) ∧
    (∃ r, Comparison.eval periods .root (.plain late .le (.int 4)) = .ok r ∧
      (r.isHost = true ↔ r.left.vars = [] ∧ r.right.vars = [])) := by
  have heval : late.eval periods .root = .ok (.symbolic lateResult) := rfl
  obtain ⟨hsymbolic, -, hcomparison⟩ := eval_shape periods .root
  obtain ⟨hshape, -, -, hprovides⟩ := hsymbolic late lateResult heval
  exact ⟨heval, hshape, hprovides, _, rfl, hcomparison (.plain late .le (.int 4)) _ rfl⟩

end Milp
