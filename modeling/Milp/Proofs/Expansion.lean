import Milp.Expansion
import Milp.Expr.Builder
import Milp.Proofs.Enumeration
import Milp.Proofs.Failure

/-! Expansion of a constraint as a walk over a list of tuples. The walk is the rule by which a
quantified constraint is read; expansion agrees with it on results and on failures alike, and
every tuple of the product ends up either in one instance or among those left out. -/
namespace Milp

variable {V : Type}

def Quantifier.bindings : List Quantifier → Tuple → Bindings
  | q :: qs, x :: t => (q.index, x) :: Quantifier.bindings qs t
  | _, _ => []

/-- Tries conditions in order, up to the first that is false or fails. -/
def Condition.holdAll (st : Setting V) (scope : Scope) :
    List (Comparison Expr) → Except Error Bool
  | [] => .ok true
  | c :: cs =>
    match Condition.eval st scope (some c) with
    | .error e => .error e
    | .ok false => .ok false
    | .ok true => Condition.holdAll st scope cs

private theorem Scope.get?_layer (bs : Bindings) (name : String) :
    Scope.get? [bs] name = (bs.reverse.find? fun b => b.1 == name).map Prod.snd := by
  rw [Scope.get?]
  cases bs.reverse.find? fun b => b.1 == name <;> rfl

private theorem Quantifier.exists_of_mem_bindings {qs : List Quantifier} {t : Tuple}
    {b : String × Element} (h : b ∈ bindings qs t) : ∃ q ∈ qs, b.1 = q.index := by
  induction qs generalizing t with
  | nil => simp [bindings] at h
  | cons q qs ih =>
    cases t with
    | nil => simp [bindings] at h
    | cons x t =>
      rcases List.mem_cons.mp h with rfl | h
      · exact ⟨q, List.mem_cons_self, rfl⟩
      · obtain ⟨p, hp, hb⟩ := ih h
        exact ⟨p, List.mem_cons_of_mem _ hp, hb⟩

/-- A name is bound to the component of its last quantifier. -/
theorem Quantifier.get?_bindings {qs : List Quantifier} {t : Tuple} (hlen : t.length = qs.length)
    {k : Nat} (hk : k < qs.length)
    (hlast : ∀ j (hj : j < qs.length), k < j → qs[j].index ≠ qs[k].index) :
    Scope.get? [bindings qs t] qs[k].index = t[k]? := by
  induction qs generalizing t k with
  | nil => simp at hk
  | cons q qs ih =>
    obtain ⟨x, t, rfl⟩ := List.exists_cons_of_length_eq_add_one hlen
    rw [Scope.get?_layer, bindings, List.reverse_cons, List.find?_append]
    cases k with
    | zero =>
      -- No later quantifier has the name of the first one, so the reversed search ends at it.
      have hnone : (bindings qs t).reverse.find? (fun b => b.1 == q.index) = none := by
        rw [List.find?_eq_none]
        intro b hb
        obtain ⟨p, hp, hname⟩ := exists_of_mem_bindings (List.mem_reverse.mp hb)
        obtain ⟨j, hj, rfl⟩ := List.mem_iff_getElem.mp hp
        have hne := hlast (j + 1) (Nat.succ_lt_succ hj) (Nat.succ_pos j)
        rw [List.getElem_cons_succ, List.getElem_cons_zero] at hne
        rw [hname, beq_iff_eq]
        exact hne
      rw [List.getElem_cons_zero, hnone]
      simp
    | succ k =>
      have hrest := ih (by simpa using hlen) (Nat.lt_of_succ_lt_succ hk) fun j hj hkj =>
        hlast (j + 1) (Nat.succ_lt_succ hj) (Nat.succ_lt_succ hkj)
      have hkt : k < t.length := by
        simp only [List.length_cons] at hlen hk
        omega
      rw [Scope.get?_layer, List.getElem?_eq_getElem hkt, Option.map_eq_some_iff] at hrest
      obtain ⟨b, hb, hx⟩ := hrest
      rw [List.getElem_cons_succ, hb, List.getElem?_cons_succ, List.getElem?_eq_getElem hkt, ← hx]
      rfl

namespace Constraint

/-- Walks tuples in order: a tuple with a false condition is counted as skipped, any other gives
the instance of the body in its scope, and the first failure ends the walk. -/
def walk (st : Setting V) (c : Constraint) : List Tuple → Except Error (Expansion V)
  | [] => .ok ⟨[], 0⟩
  | t :: ts =>
    let scope := [Quantifier.bindings c.quantifiers t]
    match Condition.holdAll st scope (c.quantifiers.filterMap Quantifier.condition) with
    | .error e => .error e
    | .ok false => (walk st c ts).map fun e => { e with skipped := e.skipped + 1 }
    | .ok true =>
      match Comparison.eval st scope c.body with
      | .error e => .error e
      | .ok r => (walk st c ts).map fun e => { e with instances := ⟨some t, r⟩ :: e.instances }

theorem scope_eq_bindings (qs : List Quantifier) (t : Tuple) :
    scope qs t = [Quantifier.bindings qs t] := by
  rw [scope, Scope.child, Scope.root]
  congr 1
  induction qs generalizing t with
  | nil => rfl
  | cons q qs ih =>
    cases t with
    | nil => rfl
    | cons x t => simpa [Quantifier.bindings] using ih t

end Constraint

theorem Quantifier.allHold_eq_holdAll (st : Setting V) (scope : Scope) (qs : List Quantifier) :
    allHold st scope qs = Condition.holdAll st scope (qs.filterMap condition) := by
  induction qs with
  | nil => rfl
  | cons q qs ih =>
    rw [allHold]
    cases hq : q.condition with
    | none =>
      rw [List.filterMap_cons_none hq, ← ih, Condition.eval]
      rfl
    | some c =>
      rw [List.filterMap_cons_some hq, Condition.holdAll]
      cases Condition.eval st scope (some c) with
      | error e => rfl
      | ok holds => cases holds <;> [rfl; exact ih]

namespace Constraint

private def after (soFar e : Expansion V) : Expansion V :=
  ⟨e.instances.reverse ++ soFar.instances, soFar.skipped + e.skipped⟩

private theorem foldlM_extend (st : Setting V) (c : Constraint) (ts : List Tuple)
    (soFar : Expansion V) :
    ts.foldlM (extend st c.body c.quantifiers) soFar = (walk st c ts).map (after soFar) := by
  induction ts generalizing soFar with
  | nil => rfl
  | cons t ts ih =>
    rw [List.foldlM_cons, extend, walk, scope_eq_bindings, Quantifier.allHold_eq_holdAll]
    cases Condition.holdAll st [Quantifier.bindings c.quantifiers t]
        (c.quantifiers.filterMap Quantifier.condition) with
    | error e => rfl
    | ok holds =>
      cases holds with
      | false =>
        simp only [ok_bind, Bool.false_eq_true, if_false, pure_eq_ok, ih]
        cases walk st c ts with
        | error e => rfl
        | ok e => simp [Except.map, after, Nat.add_comm, Nat.add_left_comm]
      | true =>
        simp only [ok_bind, if_true]
        cases Comparison.eval st [Quantifier.bindings c.quantifiers t] c.body with
        | error e => rfl
        | ok r =>
          simp only [ok_bind, pure_eq_ok, ih]
          cases walk st c ts with
          | error e => rfl
          | ok e => simp [Except.map, after]

end Constraint

theorem Setting.elements_eq_ok {st : Setting V} {name : String} {axis : List Element} :
    st.elements name = .ok axis ↔ ∃ s, st.sets.get? name = some s ∧ s.elements = axis := by
  rw [elements]
  cases st.sets.get? name <;> simp

theorem Setting.axes_eq_ok {st : Setting V} {names : List String} {axes : List (List Element)} :
    st.axes names = .ok axes ↔
      ∃ sets : List IndexSet, names.map st.sets.get? = sets.map some ∧
        axes = sets.map IndexSet.elements := by
  rw [Setting.axes, mapM_eq_ok]
  constructor
  · intro h
    induction h with
    | nil => exact ⟨[], rfl, rfl⟩
    | cons hname _ ih =>
      obtain ⟨s, hs, rfl⟩ := elements_eq_ok.mp hname
      obtain ⟨sets, hsets, rfl⟩ := ih
      exact ⟨s :: sets, by simp [hs, hsets], rfl⟩
  · rintro ⟨sets, hsets, rfl⟩
    induction names generalizing sets with
    | nil =>
      rw [List.map_eq_nil_iff.mp hsets.symm]
      exact .nil
    | cons name names ih =>
      cases sets with
      | nil => simp at hsets
      | cons s sets =>
        obtain ⟨hs, hsets⟩ := List.cons.inj hsets
        exact .cons (elements_eq_ok.mpr ⟨s, hs, rfl⟩) (ih sets hsets)

theorem Setting.length_of_axes {st : Setting V} {names : List String} {axes : List (List Element)}
    (h : st.axes names = .ok axes) : axes.length = names.length :=
  (mapM_eq_ok.mp h).length_eq.symm

theorem exceeded?_eq_none {axes : List (List Element)} {limit : Option Nat} :
    exceeded? axes limit = none ↔
      ∀ l, limit = some l → min (axes.map List.length).prod sizeCap ≤ l := by
  cases limit with
  | none => simp [exceeded?]
  | some l =>
    rw [exceeded?, Odometer.size_start]
    simp only [ite_eq_right_iff, reduceCtorEq, imp_false, Nat.not_lt, Option.some.injEq,
      forall_eq']

namespace Constraint

theorem expand_unquantified {st : Setting V} {c : Constraint} (h : c.quantifiers = []) :
    c.expand st = (Comparison.eval st .root c.body).map fun r => ⟨[⟨none, r⟩], 0⟩ := by
  rw [expand, h]
  cases Comparison.eval st .root c.body <;> rfl

/-- A quantified constraint within the limit is expanded by walking the product of its sets. -/
theorem expand_quantified {st : Setting V} {c : Constraint} (h : c.quantifiers ≠ []) :
    c.expand st = (do
      let axes ← st.axes (c.quantifiers.map Quantifier.set)
      match exceeded? axes st.limits.instances with
      | some (size, limit) => .error (.limitExceeded c.name size limit)
      | none => walk st c (tuples axes)) := by
  have hunfold : c.expand st = (do
      let axes ← st.axes (c.quantifiers.map Quantifier.set)
      match exceeded? axes st.limits.instances with
      | some (size, limit) => .error (.limitExceeded c.name size limit)
      | none =>
        let e ← Odometer.forAll axes (extend st c.body c.quantifiers) ⟨[], 0⟩
        return { e with instances := e.instances.reverse }) := by
    rw [expand]
    split
    · exact absurd ‹_› h
    · rfl
  rw [hunfold]
  refine bind_congr fun axes => ?_
  cases exceeded? axes st.limits.instances with
  | some p => rfl
  | none =>
    simp only [Odometer.forAll_eq_foldlM, foldlM_extend]
    cases walk st c (tuples axes) with
    | error e => rfl
    | ok e => simp [Except.map, after]

theorem walk_length {st : Setting V} {c : Constraint} {ts : List Tuple} {e : Expansion V}
    (h : walk st c ts = .ok e) : e.instances.length + e.skipped = ts.length := by
  induction ts generalizing e with
  | nil =>
    cases h
    rfl
  | cons t ts ih =>
    simp only [walk] at h
    split at h
    · cases h
    · obtain ⟨e', he', rfl⟩ := map_eq_ok.mp h
      simp [← ih he', Nat.add_assoc]
    · split at h
      · cases h
      · obtain ⟨e', he', rfl⟩ := map_eq_ok.mp h
        simp [← ih he', Nat.add_right_comm]

theorem walk_sublist {st : Setting V} {c : Constraint} {ts : List Tuple} {e : Expansion V}
    (h : walk st c ts = .ok e) : (e.instances.map Instance.index).Sublist (ts.map some) := by
  induction ts generalizing e with
  | nil =>
    cases h
    exact .slnil
  | cons t ts ih =>
    simp only [walk] at h
    split at h
    · cases h
    · obtain ⟨e', he', rfl⟩ := map_eq_ok.mp h
      exact (ih he').cons _
    · split at h
      · cases h
      · obtain ⟨e', he', rfl⟩ := map_eq_ok.mp h
        exact (ih he').cons_cons _

/-- A constraint without quantifiers has one instance, without an index. A quantified one whose
sets are known and whose product is within the limit is expanded by walking the product in
lexicographic order, where a tuple binds each name to the component of its last quantifier. An
expansion accounts for every tuple once, in product order. -/
theorem expand_eq_walk (st : Setting V) (c : Constraint) :
    (c.quantifiers = [] →
      c.expand st = (Comparison.eval st .root c.body).map fun r => ⟨[⟨none, r⟩], 0⟩) ∧
    ∀ sets : List IndexSet, c.quantifiers ≠ [] →
      c.quantifiers.map (fun q => st.sets.get? q.set) = sets.map some →
      (∀ l, st.limits.instances = some l →
        min (sets.map fun s => s.elements.length).prod sizeCap ≤ l) →
      c.expand st = walk st c (tuples (sets.map IndexSet.elements)) ∧
      (∀ t ∈ tuples (sets.map IndexSet.elements), ∀ k (hk : k < c.quantifiers.length),
        (∀ j (hj : j < c.quantifiers.length), k < j →
          c.quantifiers[j].index ≠ c.quantifiers[k].index) →
        Scope.get? [Quantifier.bindings c.quantifiers t] c.quantifiers[k].index = t[k]?) ∧
      ∀ e, c.expand st = .ok e →
        e.instances.length + e.skipped = (sets.map fun s => s.elements.length).prod ∧
        (e.instances.map Instance.index).Sublist
          ((tuples (sets.map IndexSet.elements)).map some) ∧
        ((∀ s ∈ sets, s.elements.Nodup) → (e.instances.map Instance.index).Nodup) := by
  refine ⟨expand_unquantified, fun sets hq hsets hlimit => ?_⟩
  have haxes : st.axes (c.quantifiers.map Quantifier.set) = .ok (sets.map IndexSet.elements) :=
    Setting.axes_eq_ok.mpr ⟨sets, by rw [List.map_map]; exact hsets, rfl⟩
  have hlengths : (sets.map IndexSet.elements).map List.length =
      sets.map fun s => s.elements.length := List.map_map
  have hnone : exceeded? (sets.map IndexSet.elements) st.limits.instances = none := by
    rw [exceeded?_eq_none, hlengths]
    exact hlimit
  have hwalk : c.expand st = walk st c (tuples (sets.map IndexSet.elements)) := by
    rw [expand_quantified hq, haxes, ok_bind, hnone]
  have hwidth : c.quantifiers.length = sets.length := by
    simpa using congrArg List.length hsets
  refine ⟨hwalk, fun t ht k hk hlast => ?_, fun e he => ?_⟩
  · refine Quantifier.get?_bindings ?_ hk hlast
    rw [length_of_mem_tuples ht, List.length_map, hwidth]
  rw [hwalk] at he
  refine ⟨?_, walk_sublist he, fun hnodup => ?_⟩
  · rw [walk_length he, length_tuples, hlengths]
  · refine (walk_sublist he).nodup ((nodup_tuples ?_).map (Option.some_injective _))
    intro axis haxis
    obtain ⟨s, hs, rfl⟩ := List.mem_map.mp haxis
    exact hnodup s hs

def digits : IndexSet := ⟨"I", [.int 1, .int 2, .int 3]⟩

/-- A family over the set, with tuples as handles, and just enough room for all pairs. -/
def pairing : Setting Tuple where
  sets := ⟨[digits]⟩
  parameters := .empty
  vars := ⟨[{ name := "x", indices := ["I"] }]⟩
  handle _ t := some t
  limits := { instances := some 9 }

/-- A bound for every increasing pair; the condition of the outer quantifier reads the inner one. -/
def increasing : Constraint :=
  .forAll "increasing"
    (.plain (.var "x" [.indexVar "i"]) .le (.var "x" [.indexVar "j"]))
    [⟨"i", "I", some (.index (.indexVar "i") .lt (.indexVar "j"))⟩, ⟨"j", "I", none⟩]

def ordered (i j : Element) : Instance Tuple :=
  ⟨some [i, j], ⟨.symbolic (.var [i]), .le, .symbolic (.var [j])⟩⟩

theorem expand_eq_walk_increasing :
    increasing.quantifiers ≠ [] ∧
    increasing.quantifiers.map (fun q => pairing.sets.get? q.set) = [some digits, some digits] ∧
    (∀ l, pairing.limits.instances = some l →
      min ([digits, digits].map fun s => s.elements.length).prod sizeCap ≤ l) ∧
    increasing.expand pairing =
      .ok ⟨[ordered (.int 1) (.int 2), ordered (.int 1) (.int 3), ordered (.int 2) (.int 3)], 6⟩ ∧
    increasing.expand pairing =
      walk pairing increasing (tuples ([digits, digits].map IndexSet.elements)) ∧
    (∀ t ∈ tuples ([digits, digits].map IndexSet.elements), ∀ k
      (hk : k < increasing.quantifiers.length),
      (∀ j (hj : j < increasing.quantifiers.length), k < j →
        increasing.quantifiers[j].index ≠ increasing.quantifiers[k].index) →
      Scope.get? [Quantifier.bindings increasing.quantifiers t] increasing.quantifiers[k].index =
        t[k]?) ∧
    ∀ e, increasing.expand pairing = .ok e →
      e.instances.length + e.skipped = ([digits, digits].map fun s => s.elements.length).prod ∧
      (e.instances.map Instance.index).Sublist
        ((tuples ([digits, digits].map IndexSet.elements)).map some) ∧
      ((∀ s ∈ [digits, digits], s.elements.Nodup) → (e.instances.map Instance.index).Nodup) := by
  have hq : increasing.quantifiers ≠ [] := nofun
  have hsets : increasing.quantifiers.map (fun q => pairing.sets.get? q.set) =
      [digits, digits].map some := rfl
  have hlimit : ∀ l, pairing.limits.instances = some l →
      min ([digits, digits].map fun s => s.elements.length).prod sizeCap ≤ l := by
    rintro _ ⟨⟩
    decide
  exact ⟨hq, hsets, hlimit, rfl,
    (expand_eq_walk pairing increasing).2 [digits, digits] hq hsets hlimit⟩

end Constraint

end Milp
