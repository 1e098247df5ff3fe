import Milp.Proofs.Evaluation.Agreement

/-! Limits of enumerations. The number of combinations is compared with the limit when all sets are
known and nothing has been evaluated. The comparison is exact: the number is held at a cap, but no
limit below the cap can tell. -/
namespace Milp

variable {V : Type}

def combinations (sets : List IndexSet) : Nat := (sets.map fun s => s.elements.length).prod

theorem combinations_eq (sets : List IndexSet) :
    ((sets.map IndexSet.elements).map List.length).prod = combinations sets := by
  rw [combinations, List.map_map]
  rfl

/-- One empty set leaves no combination, whatever the others hold. -/
theorem combinations_eq_zero {sets : List IndexSet} (h : ∃ s ∈ sets, s.elements = []) :
    combinations sets = 0 := by
  obtain ⟨s, hs, hempty⟩ := h
  rw [combinations, List.prod_eq_zero_iff, List.mem_map]
  exact ⟨s, hs, by rw [hempty, List.length_nil]⟩

theorem tuples_of_empty {sets : List IndexSet} (h : ∃ s ∈ sets, s.elements = []) :
    tuples (sets.map IndexSet.elements) = [] := by
  rw [← List.length_eq_zero_iff, length_tuples, combinations_eq, combinations_eq_zero h]

theorem withinLimit_eq_ok {owner : String} {axes : List (List Element)} {limit : Option Nat} :
    withinLimit owner axes limit = .ok () ↔
      ∀ l ∈ limit, min (axes.map List.length).prod sizeCap ≤ l := by
  have hnone : withinLimit owner axes limit = .ok () ↔ exceeded? axes limit = none := by
    rw [withinLimit]
    cases exceeded? axes limit <;> simp
  rw [hnone, exceeded?_eq_none]
  rfl

/-- Beyond a limit that is below the cap, the failure shows the size as far as it is known. -/
theorem withinLimit_of_lt {owner : String} {sets : List IndexSet} {l : Nat} (hl : l < sizeCap)
    (h : l < combinations sets) :
    withinLimit owner (sets.map IndexSet.elements) (some l) =
      .error (.limitExceeded owner (min (combinations sets) sizeCap) l) := by
  have hsize : (Odometer.start (sets.map IndexSet.elements)).size =
      min (combinations sets) sizeCap := by
    rw [Odometer.size_start, combinations_eq]
  rw [withinLimit, exceeded?]
  simp only [hsize, if_pos (Nat.lt_min.mpr ⟨h, hl⟩)]

theorem withinLimit_of_le {owner : String} {sets : List IndexSet} {limit : Option Nat}
    (h : ∀ l ∈ limit, combinations sets ≤ l) :
    withinLimit owner (sets.map IndexSet.elements) limit = .ok () := by
  rw [withinLimit_eq_ok, combinations_eq]
  exact fun l hl => (Nat.min_le_left _ _).trans (h l hl)

private theorem le_limit {limit : Option Nat} {n l : Nat} (hlimit : limit = some l) (h : n ≤ l) :
    ∀ b ∈ limit, n ≤ b := by
  rw [hlimit]
  rintro _ ⟨⟩
  exact h

/-- Known sets give their elements as axes. -/
private theorem axes_of_known {α : Type} {as : List α} {set : α → String} {st : Setting V}
    {sets : List IndexSet} (h : as.map (fun a => st.sets.get? (set a)) = sets.map some) :
    st.axes (as.map set) = .ok (sets.map IndexSet.elements) := by
  refine Setting.axes_eq_ok.mpr ⟨sets, ?_, rfl⟩
  rw [List.map_map]
  exact h

def Error.OverLimit (e : Error) : Prop := ∃ name size limit, e = .limitExceeded name size limit

/-- Whether limits let through whatever others do: each bound is missing, or the others have that
bound too and it is no larger there. -/
structure Limits.Relaxes (l' l : Limits) : Prop where
  instances : ∀ b ∈ l'.instances, ∃ a ∈ l.instances, a ≤ b
  terms : ∀ b ∈ l'.terms, ∃ a ∈ l.terms, a ≤ b

/-- What passes a limit passes every larger one. -/
theorem withinLimit_alike {limit limit' : Option Nat} (h : ∀ b ∈ limit', ∃ a ∈ limit, a ≤ b)
    (owner : String) (axes : List (List Element)) :
    AlikeUnless Error.OverLimit (withinLimit owner axes limit) (withinLimit owner axes limit') := by
  cases hpass : withinLimit owner axes limit with
  | ok _ =>
    have hpass' : withinLimit owner axes limit' = .ok () := by
      refine withinLimit_eq_ok.mpr fun b hb => ?_
      obtain ⟨a, ha, hab⟩ := h b hb
      exact (withinLimit_eq_ok.mp hpass a ha).trans hab
    rw [hpass']
    exact .same _
  | error e =>
    refine .cut ?_ _
    rw [withinLimit] at hpass
    split at hpass
    · cases hpass
      exact ⟨_, _, _, rfl⟩
    · cases hpass

/-- Settings that differ in their limits answer alike until the tighter ones are exceeded. -/
theorem Limits.Relaxes.agrees {st : Setting V} {limits : Limits} (h : limits.Relaxes st.limits) :
    st.AgreesUnless Error.OverLimit { st with limits } where
  elements _ := .same _
  dimension _ _ _ := .same _
  lookup _ _ _ _ := .same _
  terms := withinLimit_alike h.terms
  instances := withinLimit_alike h.instances

/-- Whether a constraint is refused over its own limit, with these numbers: it fails so whatever its
conditions and its body are. -/
def Constraint.Refused (st : Setting V) (c : Constraint) (size limit : Nat) : Prop :=
  ∀ c' : Constraint, c'.name = c.name →
    c'.quantifiers.map Quantifier.set = c.quantifiers.map Quantifier.set →
    c'.expand st = .error (.limitExceeded c.name size limit)

/-- Whether sums over these ranges are refused over their own limit, with these numbers: they fail
so whatever their conditions and their bodies are. -/
def Aggregation.Refused (st : Setting V) (scope : Scope) (ranges : List Range) (size limit : Nat) :
    Prop :=
  ∀ body condition, Aggregation.eval st scope ⟨.sum, body, ranges, condition⟩ =
    .error (.limitExceeded (Aggregation.text ⟨.sum, body, ranges, condition⟩) size limit)

namespace Constraint

variable {st : Setting V} {c : Constraint} {sets : List IndexSet}

theorem expand_of_known (hq : c.quantifiers ≠ [])
    (hsets : c.quantifiers.map (fun q => st.sets.get? q.set) = sets.map some) :
    c.expand st = (do
      withinLimit c.name (sets.map IndexSet.elements) st.limits.instances
      walk st c (tuples (sets.map IndexSet.elements))) := by
  rw [expand_limited hq, axes_of_known hsets, ok_bind]

theorem expand_of_le (hq : c.quantifiers ≠ [])
    (hsets : c.quantifiers.map (fun q => st.sets.get? q.set) = sets.map some)
    (h : ∀ l ∈ st.limits.instances, combinations sets ≤ l) :
    c.expand st = walk st c (tuples (sets.map IndexSet.elements)) := by
  rw [expand_of_known hq hsets, withinLimit_of_le h, ok_bind]

theorem expand_of_empty (hq : c.quantifiers ≠ [])
    (hsets : c.quantifiers.map (fun q => st.sets.get? q.set) = sets.map some)
    (h : ∃ s ∈ sets, s.elements = []) : c.expand st = .ok ⟨[], 0⟩ := by
  rw [expand_of_le hq hsets, tuples_of_empty h, walk]
  intro l _
  rw [combinations_eq_zero h]
  exact Nat.zero_le l

/-- What is known of the sets of a constraint is known of every constraint over the same sets. -/
private theorem known_congr {c' : Constraint}
    (h : c'.quantifiers.map Quantifier.set = c.quantifiers.map Quantifier.set)
    (hq : c.quantifiers ≠ [])
    (hsets : c.quantifiers.map (fun q => st.sets.get? q.set) = sets.map some) :
    c'.quantifiers ≠ [] ∧ c'.quantifiers.map (fun q => st.sets.get? q.set) = sets.map some := by
  constructor
  · intro hnil
    rw [hnil, List.map_nil, eq_comm, List.map_eq_nil_iff] at h
    exact hq h
  · have hlookups := congrArg (List.map st.sets.get?) h
    rw [List.map_map, List.map_map] at hlookups
    exact hlookups.trans hsets

private def spoiled (c : Constraint) : Constraint :=
  ⟨c.name, ⟨.comparison, .unary .negate (.string ""), .le, .string ""⟩,
    some (c.quantifiers.map fun q => { q with condition := none })⟩

/-- Expansion of a spoiled constraint fails over its body, if there is any combination at all. -/
private theorem walk_spoiled {ts : List Tuple} {owner : String} {size limit : Nat} :
    walk st c.spoiled ts ≠ .error (.limitExceeded owner size limit) := by
  have hnone : c.spoiled.quantifiers.filterMap Quantifier.condition = [] := by
    refine List.filterMap_eq_nil_iff.mpr fun q hq => ?_
    obtain ⟨_, _, rfl⟩ := List.mem_map.mp hq
    rfl
  cases ts with
  | nil => nofun
  | cons t ts =>
    rw [walk_cons, hnone, spoiled]
    nofun

/-- A constraint is refused over its own limit exactly when its sets have more combinations. -/
theorem refused_iff (hq : c.quantifiers ≠ [])
    (hsets : c.quantifiers.map (fun q => st.sets.get? q.set) = sets.map some) {l : Nat}
    (hlimit : st.limits.instances = some l) (hl : l < sizeCap) (size limit : Nat) :
    c.Refused st size limit ↔
      l < combinations sets ∧ size = min (combinations sets) sizeCap ∧ limit = l := by
  have hrefused (c' : Constraint) (hname : c'.name = c.name)
      (hranges : c'.quantifiers.map Quantifier.set = c.quantifiers.map Quantifier.set)
      (h : l < combinations sets) :
      c'.expand st = .error (.limitExceeded c.name (min (combinations sets) sizeCap) l) := by
    obtain ⟨hq', hsets'⟩ := known_congr hranges hq hsets
    rw [expand_of_known hq' hsets', hlimit, hname, withinLimit_of_lt hl h, error_bind]
  constructor
  · intro h
    have hlt : l < combinations sets := by
      -- Otherwise expansion goes on to the body, and with a spoiled one it fails over that.
      by_contra hle
      have hranges : c.spoiled.quantifiers.map Quantifier.set = c.quantifiers.map Quantifier.set :=
        List.map_map ..
      obtain ⟨hq', hsets'⟩ := known_congr hranges hq hsets
      have hspoiled := h c.spoiled rfl hranges
      rw [expand_of_le hq' hsets' (le_limit hlimit (Nat.le_of_not_lt hle))] at hspoiled
      exact walk_spoiled hspoiled
    have hown := (h c rfl rfl).symm.trans (hrefused c rfl rfl hlt)
    simp only [Except.error.injEq, Error.limitExceeded.injEq, true_and] at hown
    exact ⟨hlt, hown⟩
  · rintro ⟨hlt, rfl, rfl⟩ c' hname hranges
    exact hrefused c' hname hranges hlt

end Constraint

namespace Aggregation

variable {st : Setting V} {scope : Scope} {body : Expr} {ranges : List Range}
  {condition : Option (Comparison Expr)} {sets : List IndexSet}

theorem eval_of_known (hsets : ranges.map (fun r => st.sets.get? r.set) = sets.map some) :
    eval st scope ⟨.sum, body, ranges, condition⟩ = (do
      withinLimit (text ⟨.sum, body, ranges, condition⟩) (sets.map IndexSet.elements)
        st.limits.terms
      let vs ← terms st scope body ranges condition (tuples (sets.map IndexSet.elements))
      Resolved.sum scope vs) := by
  rw [eval_sum_limited, axes_of_known hsets, ok_bind]

theorem eval_of_le (hsets : ranges.map (fun r => st.sets.get? r.set) = sets.map some)
    (h : ∀ l ∈ st.limits.terms, combinations sets ≤ l) :
    eval st scope ⟨.sum, body, ranges, condition⟩ = (do
      let vs ← terms st scope body ranges condition (tuples (sets.map IndexSet.elements))
      Resolved.sum scope vs) := by
  rw [eval_of_known hsets, withinLimit_of_le h, ok_bind]

theorem eval_of_empty (hsets : ranges.map (fun r => st.sets.get? r.set) = sets.map some)
    (h : ∃ s ∈ sets, s.elements = []) :
    eval st scope ⟨.sum, body, ranges, condition⟩ = .ok (.host (.int 0)) := by
  rw [eval_of_le hsets, tuples_of_empty h]
  · rfl
  · intro l _
    rw [combinations_eq_zero h]
    exact Nat.zero_le l

/-- Sums are refused over their own limit exactly when their sets have more combinations. -/
theorem refused_iff (hsets : ranges.map (fun r => st.sets.get? r.set) = sets.map some) {l : Nat}
    (hlimit : st.limits.terms = some l) (hl : l < sizeCap) (size limit : Nat) :
    Refused st scope ranges size limit ↔
      l < combinations sets ∧ size = min (combinations sets) sizeCap ∧ limit = l := by
  have hrefused (h : l < combinations sets) :
      Refused st scope ranges (min (combinations sets) sizeCap) l := by
    intro body condition
    rw [eval_of_known hsets, hlimit, withinLimit_of_lt hl h, error_bind]
  constructor
  · intro h
    have hown := h (.unary .negate (.string "")) none
    have hlt : l < combinations sets := by
      -- Otherwise evaluation goes on to this body, and fails over it if there is any term at all.
      by_contra hle
      rw [eval_of_le hsets] at hown
      · cases htuples : tuples (sets.map IndexSet.elements) with
        | nil =>
          rw [htuples] at hown
          cases hown
        | cons t ts =>
          rw [htuples] at hown
          cases hown
      · exact le_limit hlimit (Nat.le_of_not_lt hle)
    have hnumbers := hown.symm.trans (hrefused hlt _ _)
    simp only [Except.error.injEq, Error.limitExceeded.injEq, true_and] at hnumbers
    exact ⟨hlt, hnumbers⟩
  · rintro ⟨hlt, rfl, rfl⟩
    exact hrefused hlt

end Aggregation

/-- Limits are exact, for constraints and for sums alike. With known sets and a limit below the cap,
refusal comes before any evaluation and exactly when there are more combinations than the limit;
otherwise only the conditions and the body decide. A product with an empty set passes every
limit. -/
theorem limits_exact (st : Setting V) (sets : List IndexSet) :
    (∀ c : Constraint, c.quantifiers ≠ [] →
      c.quantifiers.map (fun q => st.sets.get? q.set) = sets.map some →
      (∀ l, st.limits.instances = some l → l < sizeCap →
        (∀ size limit, c.Refused st size limit ↔
          l < combinations sets ∧ size = min (combinations sets) sizeCap ∧ limit = l) ∧
        (combinations sets ≤ l →
          c.expand st = Constraint.walk st c (tuples (sets.map IndexSet.elements)))) ∧
      ((∃ s ∈ sets, s.elements = []) → c.expand st = .ok ⟨[], 0⟩)) ∧
    ∀ (scope : Scope) (ranges : List Range),
      ranges.map (fun r => st.sets.get? r.set) = sets.map some →
      (∀ l, st.limits.terms = some l → l < sizeCap →
        (∀ size limit, Aggregation.Refused st scope ranges size limit ↔
          l < combinations sets ∧ size = min (combinations sets) sizeCap ∧ limit = l) ∧
        (combinations sets ≤ l → ∀ body condition,
          Aggregation.eval st scope ⟨.sum, body, ranges, condition⟩ = (do
            let vs ← Aggregation.terms st scope body ranges condition
              (tuples (sets.map IndexSet.elements))
            Resolved.sum scope vs))) ∧
      ((∃ s ∈ sets, s.elements = []) → ∀ body condition,
        Aggregation.eval st scope ⟨.sum, body, ranges, condition⟩ = .ok (.host (.int 0))) := by
  constructor
  · intro c hq hsets
    refine ⟨fun l hlimit hl => ⟨Constraint.refused_iff hq hsets hlimit hl, fun hle => ?_⟩, ?_⟩
    · exact Constraint.expand_of_le hq hsets (le_limit hlimit hle)
    · exact Constraint.expand_of_empty hq hsets
  · intro scope ranges hsets
    refine ⟨fun l hlimit hl => ⟨Aggregation.refused_iff hsets hlimit hl, fun hle _ _ => ?_⟩, ?_⟩
    · exact Aggregation.eval_of_le hsets (le_limit hlimit hle)
    · exact fun hempty _ _ => Aggregation.eval_of_empty hsets hempty

def bits : IndexSet := ⟨"B", [.int 0, .int 1]⟩

def hollow : IndexSet := ⟨"E", []⟩

def bounded : Setting Tuple where
  sets := ⟨[bits, hollow]⟩
  parameters := .empty
  vars := .empty
  handle _ _ := none
  limits := { instances := some 1000, terms := some 3 }

def cube (set : String) : Constraint :=
  .forAll "cube" (.plain (.indexVar "i") .le (.int 1))
    (List.replicate 70 ⟨"i", "B", none⟩ ++ [⟨"j", set, none⟩])

theorem limits_exact_cube :
    ((cube "B").quantifiers ≠ [] ∧
      (cube "B").quantifiers.map (fun q => bounded.sets.get? q.set) =
        (List.replicate 71 bits).map some ∧
      bounded.limits.instances = some 1000 ∧ 1000 < sizeCap ∧
      (cube "B").Refused bounded sizeCap 1000) ∧
    (cube "E").expand bounded = .ok ⟨[], 0⟩ ∧
    Aggregation.Refused bounded .root [⟨"i", "B"⟩, ⟨"j", "B"⟩] 4 3 := by
  have hcube : (cube "B").quantifiers.map (fun q => bounded.sets.get? q.set) =
      (List.replicate 71 bits).map some := rfl
  have hvoid : (cube "E").quantifiers.map (fun q => bounded.sets.get? q.set) =
      (List.replicate 70 bits ++ [hollow]).map some := rfl
  have hl : 1000 < sizeCap := by decide
  have hrefused := ((limits_exact bounded (List.replicate 71 bits)).1 (cube "B") nofun hcube).1
    1000 rfl hl
  have hexpand := ((limits_exact bounded (List.replicate 70 bits ++ [hollow])).1 (cube "E") nofun
    hvoid).2 ⟨hollow, List.mem_append_right _ List.mem_cons_self, rfl⟩
  have hsum := ((limits_exact bounded [bits, bits]).2 .root [⟨"i", "B"⟩, ⟨"j", "B"⟩] rfl).1 3 rfl
    (by decide)
  refine ⟨⟨nofun, hcube, rfl, hl, (hrefused.1 _ _).mpr ?_⟩, hexpand, (hsum.1 _ _).mpr ?_⟩
  · exact ⟨by decide, by decide, rfl⟩
  · exact ⟨by decide, by decide, rfl⟩

end Milp
