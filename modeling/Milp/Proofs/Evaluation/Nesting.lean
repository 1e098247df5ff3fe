import Milp.Proofs.Evaluation.Handles
import Milp.Proofs.Evaluation.Preservation
import Milp.Proofs.Evaluation.Scoping

/-! Nested sums. A sum over two groups of ranges and a sum over the first group of sums over the
second one have the same terms in the same order: the product of all ranges falls into one block for
each tuple of the first group, and a block is what the inner sum adds up there. -/
namespace Milp

variable {V : Type}

theorem Setting.axes_append_eq_ok {st : Setting V} {names names' : List String}
    {axes : List (List Element)} (h : st.axes (names ++ names') = .ok axes) :
    ∃ before after, st.axes names = .ok before ∧ st.axes names' = .ok after ∧
      axes = before ++ after := by
  rw [Setting.axes, List.mapM_append] at h
  obtain ⟨before, hbefore, h⟩ := bind_eq_ok.mp h
  obtain ⟨after, hafter, h⟩ := bind_eq_ok.mp h
  exact ⟨before, after, hbefore, hafter, (Except.ok.inj h).symm⟩

theorem Valuation.sum?_append (xs ys : List (Option ℚ)) :
    sum? (xs ++ ys) = do return (← sum? xs) + (← sum? ys) := by
  induction xs with
  | nil => cases h : sum? ys <;> simp [sum?, h]
  | cons x xs ih =>
    rw [List.cons_append, sum?, sum?, ih]
    cases x <;> cases sum? xs <;> cases sum? ys <;> simp [add_assoc]

/-- Adding up blocks and then their sums is adding up everything. -/
theorem Valuation.sum?_flatten (blocks : List (List (Option ℚ))) :
    sum? blocks.flatten = sum? (blocks.map sum?) := by
  induction blocks with
  | nil => rfl
  | cons b blocks ih => rw [List.flatten_cons, sum?_append, ih, List.map_cons, sum?]

namespace Resolved

/-- Whether terms add up to a value, with folds that are all among given ones. -/
def AddsUp (folds : List Fold) (vs : List (Resolved V)) (r : Resolved V) : Prop :=
  ∃ scope, sum scope vs = .ok r ∧ ∀ f ∈ sumFolds scope (.ok vs), f ∈ folds

namespace AddsUp

variable {folds folds' : List Fold} {vs ws : List (Resolved V)} {r : Resolved V}
  {blocks : List (List (Resolved V))}

theorem mono (h : AddsUp folds vs r) (hfolds : ∀ f ∈ folds, f ∈ folds') : AddsUp folds' vs r := by
  obtain ⟨scope, hsum, hmem⟩ := h
  exact ⟨scope, hsum, fun f hf => hfolds f (hmem f hf)⟩

theorem vars_eq (h : AddsUp folds vs r) : r.vars = vs.flatMap vars := by
  obtain ⟨scope, hsum, -⟩ := h
  exact vars_sum hsum

theorem value?_eq (ρ : Valuation V) (h : AddsUp folds vs r)
    (hfolds : ∀ f ∈ folds, f.isIntegral = true) :
    r.value? ρ = Valuation.sum? (vs.map (value? ρ)) := by
  obtain ⟨scope, hsum, hmem⟩ := h
  exact value?_sum ρ hsum fun f hf => hfolds f (hmem f hf)

/-- The sums of blocks have the handles of all terms in the blocks. -/
theorem vars_blocks (h : List.Forall₂ (AddsUp folds) blocks ws) :
    ws.flatMap vars = blocks.flatten.flatMap vars := by
  induction h with
  | nil => rfl
  | cons hw _ ih =>
    rw [List.flatMap_cons, List.flatten_cons, List.flatMap_append, hw.vars_eq, ih]

theorem value?_blocks (ρ : Valuation V) (h : List.Forall₂ (AddsUp folds) blocks ws)
    (hfolds : ∀ f ∈ folds, f.isIntegral = true) :
    Valuation.sum? (ws.map (value? ρ)) = Valuation.sum? (blocks.flatten.map (value? ρ)) := by
  have hws : ws.map (value? ρ) = (blocks.map (List.map (value? ρ))).map Valuation.sum? := by
    induction h with
    | nil => rfl
    | cons hw _ ih =>
      rw [List.map_cons, List.map_cons, List.map_cons, hw.value?_eq ρ hfolds, ih]
  rw [hws, ← Valuation.sum?_flatten, List.map_flatten]

end AddsUp

end Resolved

namespace Aggregation

variable {st : Setting V} {scope : Scope} {body : Expr} {outer ranges : List Range}
  {condition : Option (Comparison Expr)}

/-- A layer for two groups of ranges gives every name the value that two layers give it, also where
a range of the second group shadows one of the first. -/
theorem get?_inner_append (scope : Scope) (ranges : List Range) {t : Tuple}
    (ht : t.length = outer.length) (u : Tuple) (name : String) :
    (inner scope (outer ++ ranges) (t ++ u)).get? name =
      (inner (inner scope outer t) ranges u).get? name := by
  have hlength : (outer.map Range.index).length = t.length := by rw [List.length_map, ht]
  rw [inner, inner, inner, List.map_append, List.zip_append hlength]
  exact Scope.get?_child_append ..

/-- The terms of a block are those of the inner sum. -/
theorem terms_block (st : Setting V) (scope : Scope) (body : Expr) (ranges : List Range)
    (condition : Option (Comparison Expr)) {t : Tuple} (ht : t.length = outer.length)
    (us : List Tuple) :
    AlikeUpTo Error.SameBare (terms st (inner scope outer t) body ranges condition us)
      (terms st scope body (outer ++ ranges) condition (us.map (t ++ ·))) := by
  induction us with
  | nil => exact .ok []
  | cons u us ih =>
    have hscope := get?_inner_append scope ranges ht u
    rw [List.map_cons, terms, terms]
    refine (Condition.eval_same condition hscope).bind fun admitted => ?_
    cases admitted with
    | false => exact ih
    | true => exact (body.eval_same hscope).bind fun v => ih.bind fun vs => .ok (v :: vs)

/-- The terms of a sum over two groups of ranges are those of the inner sums, one after the other. -/
theorem exists_blocks {ts us : List Tuple} {vs : List (Resolved V)}
    (hts : ∀ t ∈ ts, t.length = outer.length)
    (h : terms st scope body (outer ++ ranges) condition
      (ts.flatMap fun t => us.map (t ++ ·)) = .ok vs) :
    ∃ blocks, vs = blocks.flatten ∧
      List.Forall₂ (fun t b => terms st (inner scope outer t) body ranges condition us = .ok b)
        ts blocks := by
  induction ts generalizing vs with
  | nil =>
    cases h
    exact ⟨[], rfl, .nil⟩
  | cons t ts ih =>
    rw [List.forall_mem_cons] at hts
    rw [List.flatMap_cons, terms_append] at h
    obtain ⟨b, hb, h⟩ := bind_eq_ok.mp h
    obtain ⟨ws, hws, h⟩ := bind_eq_ok.mp h
    cases h
    obtain ⟨blocks, rfl, hblocks⟩ := ih hts.2 hws
    have hblock := terms_block st scope body ranges condition hts.1 us
    rw [hb] at hblock
    exact ⟨b :: blocks, rfl, .cons hblock.eq_ok hblocks⟩

theorem addsUp_of_eval {op : Aggregator} {r : Resolved V}
    (h : eval st scope ⟨op, body, ranges, condition⟩ = .ok r) :
    ∃ axes vs, st.axes (ranges.map Range.set) = .ok axes ∧
      terms st scope body ranges condition (tuples axes) = .ok vs ∧
      Resolved.AddsUp (folds st scope ⟨op, body, ranges, condition⟩) vs r := by
  obtain ⟨-, axes, vs, haxes, hvs, hsum⟩ := eval_eq_ok h
  exact ⟨axes, vs, haxes, hvs, scope, hsum, fun f hf => (mem_folds haxes hvs).mpr (.inr hf)⟩

/-- Both ways of adding up have the same terms: the flat sum adds up the blocks one after the other,
and the terms of the outer sum are what the blocks add up to. -/
theorem blocks_of_eval {flat nested : Resolved V}
    (hflat : eval st scope ⟨.sum, body, outer ++ ranges, condition⟩ = .ok flat)
    (hnested : eval st scope ⟨.sum, .aggregate ⟨.sum, body, ranges, condition⟩, outer, none⟩ =
      .ok nested) :
    let folds := folds st scope ⟨.sum, .aggregate ⟨.sum, body, ranges, condition⟩, outer, none⟩
    ∃ blocks ws,
      Resolved.AddsUp (Aggregation.folds st scope ⟨.sum, body, outer ++ ranges, condition⟩)
        blocks.flatten flat ∧
      Resolved.AddsUp folds ws nested ∧ List.Forall₂ (Resolved.AddsUp folds) blocks ws := by
  intro folds
  obtain ⟨axes, vs, haxes, hvs, hflat⟩ := addsUp_of_eval hflat
  obtain ⟨before, ws, hbefore, hws, hnested⟩ := addsUp_of_eval hnested
  rw [List.map_append] at haxes
  obtain ⟨before', after, hbefore', hafter, rfl⟩ := Setting.axes_append_eq_ok haxes
  cases hbefore.symm.trans hbefore'
  rw [tuples_append] at hvs
  have hlength (t : Tuple) (ht : t ∈ tuples before) : t.length = outer.length := by
    rw [length_of_mem_tuples ht, Setting.length_of_axes hbefore, List.length_map]
  obtain ⟨blocks, rfl, hblocks⟩ := exists_blocks hlength hvs
  have hinner := hws
  rw [terms_unconditional, mapM_eq_ok] at hinner
  refine ⟨blocks, ws, hflat, hnested, forall₂_of_common hblocks hinner fun t ht b w hb hw => ?_⟩
  rw [Expr.eval] at hw
  obtain ⟨after', b', hafter', hb', hadds⟩ := addsUp_of_eval hw
  cases hafter.symm.trans hafter'
  cases hb.symm.trans hb'
  refine hadds.mono fun f hf => (mem_folds hbefore hws).mpr (.inl ⟨t, ?_, ?_⟩)
  · exact List.mem_filter.mpr ⟨ht, rfl⟩
  · rwa [Expr.folds]

end Aggregation

/-- A sum over two groups of ranges and the sum over the first group of sums over the second one have
the same handles in the same order. If the folds of host values are between integers on both sides,
both denote the same number; the nested sum is then no string either. -/
theorem Expr.sum_nested (st : Setting V) (scope : Scope) (body : Expr) (outer ranges : List Range)
    (condition : Option (Comparison Expr)) (flat nested : Resolved V)
    (hflat : (sum body (outer ++ ranges) condition).eval st scope = .ok flat)
    (hnested : (sum (sum body ranges condition) outer).eval st scope = .ok nested)
    (hstring : ∀ s, flat ≠ .host (.str s)) :
    nested.vars = flat.vars ∧
    ((∀ f ∈ (sum body (outer ++ ranges) condition).folds st scope, f.isIntegral = true) →
      (∀ f ∈ (sum (sum body ranges condition) outer).folds st scope, f.isIntegral = true) →
      ∀ ρ : Valuation V, ∃ x, flat.value? ρ = some x ∧ nested.value? ρ = some x) := by
  simp only [sum, eval] at hflat hnested
  obtain ⟨blocks, ws, hadds, hadds', hblocks⟩ := Aggregation.blocks_of_eval hflat hnested
  refine ⟨?_, fun hfolds hfolds' ρ => ?_⟩
  · rw [hadds'.vars_eq, hadds.vars_eq, Resolved.AddsUp.vars_blocks hblocks]
  · rw [sum, folds] at hfolds hfolds'
    obtain ⟨x, hx⟩ := flat.exists_value? ρ hstring
    refine ⟨x, hx, ?_⟩
    calc
      nested.value? ρ = Valuation.sum? (ws.map (Resolved.value? ρ)) := hadds'.value?_eq ρ hfolds'
      _ = Valuation.sum? (blocks.flatten.map (Resolved.value? ρ)) :=
        Resolved.AddsUp.value?_blocks ρ hblocks hfolds'
      _ = flat.value? ρ := (hadds.value?_eq ρ hfolds).symm
      _ = some x := hx

def pairs : Setting Tuple where
  sets := ⟨[⟨"I", [.int 1, .int 2, .int 3]⟩, ⟨"First", [.int 1]⟩]⟩
  parameters := .empty
  vars := ⟨[{ name := "x", indices := ["I"] }]⟩
  handle name t := if name = "x" then some t else none

def descent : Expr := .var "x" [.indexVar "j"] * (.indexVar "i" + .indexVar "j")

def descending : Comparison Expr := .index (.indexVar "j") .lt (.indexVar "i")

def flatDescent : Resolved Tuple :=
  .symbolic (.sum [
    .product (.var [.int 1]) (.const (.int 3)),
    .product (.var [.int 1]) (.const (.int 4)),
    .product (.var [.int 2]) (.const (.int 5))])

/-- The inner sums have no term, one term and two terms. -/
def nestedDescent : Resolved Tuple :=
  .symbolic (.sum [
    .const (.int 0),
    .product (.var [.int 1]) (.const (.int 3)),
    .sum [.product (.var [.int 1]) (.const (.int 4)), .product (.var [.int 2]) (.const (.int 5))]])

/-- The inner range shadows the second one of the outer ranges. -/
theorem Expr.sum_nested_descent :
    let flat := sum descent ([⟨"i", "I"⟩, ⟨"j", "First"⟩] ++ [⟨"j", "I"⟩]) (some descending)
    let nested := sum (sum descent [⟨"j", "I"⟩] (some descending)) [⟨"i", "I"⟩, ⟨"j", "First"⟩]
    flat.eval pairs .root = .ok flatDescent ∧ nested.eval pairs .root = .ok nestedDescent ∧
    (∀ s, flatDescent ≠ .host (.str s)) ∧
    (∀ f ∈ flat.folds pairs .root, f.isIntegral = true) ∧
    (∀ f ∈ nested.folds pairs .root, f.isIntegral = true) ∧
    nestedDescent.vars = flatDescent.vars ∧
    ∃ x, flatDescent.value? byLength = some x ∧ nestedDescent.value? byLength = some x := by
  intro flat nested
  have hflat : flat.eval pairs .root = .ok flatDescent := rfl
  have hnested : nested.eval pairs .root = .ok nestedDescent := rfl
  have hfolds : ∀ f ∈ flat.folds pairs .root, f.isIntegral = true := by decide
  have hfolds' : ∀ f ∈ nested.folds pairs .root, f.isIntegral = true := by decide
  obtain ⟨hvars, hvalue⟩ := sum_nested pairs .root descent _ _ _ _ _ hflat hnested nofun
  exact ⟨hflat, hnested, nofun, hfolds, hfolds', hvars, hvalue hfolds hfolds' byLength⟩

end Milp
