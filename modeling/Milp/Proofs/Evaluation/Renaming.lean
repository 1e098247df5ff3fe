import Milp.Proofs.Evaluation.Scoping

/-! Renaming of bound index variables. Neither the names of quantifiers nor those of ranges matter:
with another name that is not in use, a constraint has the same instances and a sum the same value,
and failures are of the same kind. -/
namespace Milp

def Range.rename (ρ : Renaming) (range : Range) : Range := { range with index := ρ range.index }

/-- Renames what the ranges bind, there and in the condition and the body. Ranges of one name are
renamed together. -/
def Aggregation.renameBound (ρ : Renaming) : Aggregation Expr → Aggregation Expr
  | ⟨op, body, ranges, condition⟩ =>
    ⟨op, body.rename ρ, ranges.map (Range.rename ρ), Condition.rename ρ condition⟩

def Quantifier.rename (ρ : Renaming) (q : Quantifier) : Quantifier :=
  { q with index := ρ q.index, condition := Condition.rename ρ q.condition }

namespace Constraint

/-- Renames what the quantifiers bind, there and in all conditions and the body. Quantifiers of one
name are renamed together. -/
def rename (ρ : Renaming) (c : Constraint) : Constraint :=
  { c with
    body := Comparison.rename ρ c.body
    quantifierList := c.quantifierList.map (List.map (Quantifier.rename ρ)) }

def conditions (c : Constraint) : List (Comparison Expr) :=
  c.quantifiers.filterMap Quantifier.condition

/-- The names that conditions and body leave to the quantifiers. -/
def openNames (c : Constraint) : List String :=
  c.conditions.flatMap Comparison.freeNames ++ Comparison.freeNames c.body

/-- All names in conditions and body, also those that an aggregation binds. -/
def innerNames (c : Constraint) : List String :=
  c.conditions.flatMap Comparison.indexNames ++ Comparison.indexNames c.body

def indexNames (c : Constraint) : List String :=
  c.quantifiers.map Quantifier.index ++ c.innerNames

theorem quantifiers_rename (ρ : Renaming) (c : Constraint) :
    (c.rename ρ).quantifiers = c.quantifiers.map (Quantifier.rename ρ) := by
  rw [quantifiers, quantifiers, rename]
  cases c.quantifierList <;> rfl

theorem conditions_rename (ρ : Renaming) (c : Constraint) :
    (c.rename ρ).conditions = c.conditions.map (Comparison.rename ρ) := by
  rw [conditions, conditions, quantifiers_rename, List.filterMap_map, List.map_filterMap]
  refine List.filterMap_congr fun q _ => ?_
  cases hq : q.condition with
  | none => simp [Quantifier.rename, Condition.rename, hq]
  | some d => simp [Quantifier.rename, Condition.rename, hq]

theorem openNames_subset (c : Constraint) : c.openNames ⊆ c.innerNames := by
  refine List.append_subset.mpr ⟨?_, ?_⟩
  · intro name hname
    obtain ⟨d, hd, hfree⟩ := List.mem_flatMap.mp hname
    exact List.mem_append_left _ (List.mem_flatMap.mpr ⟨d, hd, d.freeNames_subset hfree⟩)
  · exact List.subset_append_of_subset_right _ c.body.freeNames_subset

end Constraint

variable {V : Type} {st : Setting V} {ρ : Renaming} {s s' : Scope}

private theorem Condition.holdAll_rename {cs : List (Comparison Expr)}
    (h : ρ.Fits (cs.flatMap Comparison.freeNames) (cs.flatMap Comparison.indexNames) s s') :
    AlikeUpTo Error.SameKind (holdAll st s cs) (holdAll st s' (cs.map (Comparison.rename ρ))) := by
  induction cs with
  | nil => exact .ok true
  | cons c cs ih =>
    rw [List.flatMap_cons, List.flatMap_cons] at h
    have htail := ih h.right
    rw [List.map_cons, holdAll_cons, holdAll_cons]
    refine (Condition.eval_rename (.sameKind ρ) (some c) h.left).bind fun holds => ?_
    cases holds with
    | false => exact .ok false
    | true => exact htail

namespace Constraint

private theorem walk_rename (c : Constraint) {ts : List Tuple}
    (h : ∀ t ∈ ts, ρ.Fits c.openNames c.innerNames
      (scope c.quantifiers t) (scope (c.rename ρ).quantifiers t)) :
    AlikeUpTo Error.SameKind (walk st c ts) (walk st (c.rename ρ) ts) := by
  induction ts with
  | nil => exact .ok _
  | cons t ts ih =>
    have htail := ih fun u hu => h u (List.mem_cons_of_mem _ hu)
    have hfits := h t List.mem_cons_self
    rw [scope_eq_bindings, scope_eq_bindings] at hfits
    have hconditions : AlikeUpTo Error.SameKind
        (Condition.holdAll st [Quantifier.bindings c.quantifiers t] c.conditions)
        (Condition.holdAll st [Quantifier.bindings (c.rename ρ).quantifiers t]
          (c.rename ρ).conditions) := by
      rw [conditions_rename]
      exact Condition.holdAll_rename hfits.left
    rw [walk_cons, walk_cons]
    refine hconditions.bind fun holds => ?_
    cases holds with
    | false => exact htail.map _
    | true =>
      refine AlikeUpTo.bind ?_ fun _ => htail.map _
      exact Comparison.eval_rename (.sameKind ρ) c.body hfits.right

/-- A constraint whose quantifiers get a fresh name is expanded alike. -/
theorem expand_rename {i j : String} {c : Constraint} (hj : j ∉ c.indexNames) :
    AlikeUpTo Error.SameKind (c.expand st) ((c.rename (.replace i j)).expand st) := by
  obtain ⟨hbound, hinner⟩ := not_or.mp (mt List.mem_append.mpr hj)
  by_cases hq : c.quantifiers = []
  · have hq' : (c.rename (.replace i j)).quantifiers = [] := by
      rw [quantifiers_rename, hq, List.map_nil]
    have hfits : (Renaming.replace i j).Fits c.openNames c.innerNames .root .root :=
      .of_replace c.openNames_subset hinner fun _ _ _ => rfl
    rw [expand_unquantified hq, expand_unquantified hq']
    exact (Comparison.eval_rename (.sameKind _) c.body hfits.right).map _
  · have hq' : (c.rename (.replace i j)).quantifiers ≠ [] := by
      rw [quantifiers_rename]
      exact fun hnil => hq (List.map_eq_nil_iff.mp hnil)
    have hsets : (c.rename (.replace i j)).quantifiers.map Quantifier.set =
        c.quantifiers.map Quantifier.set := by
      rw [quantifiers_rename, List.map_map]
      rfl
    rw [expand_limited hq, expand_limited hq', hsets]
    refine (AlikeUpTo.refl Error.SameKind.refl _).bind_of_ok fun axes haxes => ?_
    refine (AlikeUpTo.refl Error.SameKind.refl _).bind fun _ => walk_rename c fun t ht => ?_
    have hlen : t.length = (c.quantifiers.map Quantifier.index).length := by
      rw [length_of_mem_tuples ht, Setting.length_of_axes haxes, List.length_map, List.length_map]
    have hnames : (c.rename (.replace i j)).quantifiers.map Quantifier.index =
        (c.quantifiers.map Quantifier.index).map (Renaming.replace i j) := by
      rw [quantifiers_rename, List.map_map, List.map_map]
      rfl
    rw [scope, scope, hnames]
    exact .binder c.openNames_subset hinner hbound (fun _ _ _ => rfl) hlen

end Constraint

/-- An aggregation whose ranges get a fresh name is evaluated alike. -/
theorem Aggregation.eval_renameBound {i j : String} {a : Aggregation Expr}
    (hi : i ∈ a.ranges.map Range.index) (hj : j ∉ indexNames a) :
    AlikeUpTo Error.SameKind (eval st s a) (eval st s (a.renameBound (.replace i j))) := by
  obtain ⟨op, body, ranges, condition⟩ := a
  obtain ⟨hbound, hinner⟩ := not_or.mp (mt List.mem_append.mpr hj)
  have hsets : (ranges.map (Range.rename (.replace i j))).map Range.set = ranges.map Range.set := by
    rw [List.map_map]
    rfl
  have hnames : (ranges.map (Range.rename (.replace i j))).map Range.index =
      (ranges.map Range.index).map (Renaming.replace i j) := by
    rw [List.map_map, List.map_map]
    rfl
  have hfits (t : Tuple) (ht : t.length = ranges.length) :
      (Renaming.replace i j).Fits (Condition.freeNames condition ++ body.freeNames)
        (Condition.indexNames condition ++ body.indexNames)
        (inner s ranges t) (inner s (ranges.map (Range.rename (.replace i j))) t) := by
    rw [inner, inner, hnames]
    refine .binder ?_ hinner hbound (fun name _ hname => ?_) (by rw [ht, List.length_map])
    · exact List.append_subset.mpr
        ⟨List.subset_append_of_subset_left _ (Condition.freeNames_subset condition),
          List.subset_append_of_subset_right _ body.freeNames_subset⟩
    · have hne : name ≠ i := fun h => hname (h ▸ hi)
      rw [Renaming.replace_of_ne hne]
  have hunseen : Error.Unseen Error.SameKind (.replace i j) := .sameKind _
  refine eval_scoped hunseen hsets (fun _ _ => rfl) (fun t ht => ?_) fun t ht => ?_
  · exact Condition.eval_rename hunseen condition (hfits t ht).left
  · exact body.eval_rename hunseen (hfits t ht).right

/-- The names of bound index variables do not matter. When a name that does not occur yet takes the
place of what quantifiers or ranges bind, the same instances come with the same tuples and the same
count of skipped ones, and a sum has the same value; failures are of the same kind, as their
snapshots and texts show the names. Names need not be distinct: those that are equal are renamed
together. -/
theorem rename_bound_alike (st : Setting V) (i j : String) :
    (∀ c : Constraint, j ∉ c.indexNames →
      AlikeUpTo Error.SameKind (c.expand st) ((c.rename (.replace i j)).expand st)) ∧
    ∀ (s : Scope) (a : Aggregation Expr),
      i ∈ a.ranges.map Range.index → j ∉ Aggregation.indexNames a →
      AlikeUpTo Error.SameKind (Aggregation.eval st s a)
        (Aggregation.eval st s (a.renameBound (.replace i j))) :=
  ⟨fun _ hj => Constraint.expand_rename hj, fun _ _ hi hj => Aggregation.eval_renameBound hi hj⟩

def below (bound : String) : Aggregation Expr :=
  ⟨.sum, .var "x" [.indexVar "i"], [⟨"i", "I"⟩],
    some (.index (.indexVar "i") .lt (.indexVar bound))⟩

/-- A comparison for every `i` and `j` with `i` below a bound, with a sum that binds another `i`. -/
def Constraint.rebinding (bound : String) : Constraint :=
  .forAll "rebinding" (.plain (.var "x" [.indexVar "i"]) .le (.aggregate (below "j")))
    [⟨"i", "I", some (.index (.indexVar "i") .lt (.indexVar bound))⟩, ⟨"j", "I", none⟩]

theorem rename_bound_alike_rebinding :
    (Constraint.rebinding "j").rename (.replace "i" "k") =
      .forAll "rebinding" (.plain (.var "x" [.indexVar "k"]) .le (.aggregate (below "j")))
        [⟨"k", "I", some (.index (.indexVar "k") .lt (.indexVar "j"))⟩, ⟨"j", "I", none⟩] ∧
    ((Constraint.rebinding "j").expand Constraint.pairing).map
      (fun e => (e.instances.map Instance.index, e.skipped)) =
        .ok ([some [.int 1, .int 2], some [.int 1, .int 3], some [.int 2, .int 3]], 6) ∧
    (Constraint.rebinding "m").expand Constraint.pairing =
      .error (.unboundIndex "m" [("i", .int 1), ("j", .int 1)]) ∧
    ((Constraint.rebinding "m").rename (.replace "i" "k")).expand Constraint.pairing =
      .error (.unboundIndex "m" [("k", .int 1), ("j", .int 1)]) ∧
    Aggregation.eval Constraint.pairing level (below "k") = .ok (.symbolic (.var [.int 1])) ∧
    "k" ∉ (Constraint.rebinding "j").indexNames ∧
    AlikeUpTo Error.SameKind ((Constraint.rebinding "j").expand Constraint.pairing)
      (((Constraint.rebinding "j").rename (.replace "i" "k")).expand Constraint.pairing) ∧
    "k" ∉ (Constraint.rebinding "m").indexNames ∧
    AlikeUpTo Error.SameKind ((Constraint.rebinding "m").expand Constraint.pairing)
      (((Constraint.rebinding "m").rename (.replace "i" "k")).expand Constraint.pairing) ∧
    "i" ∈ (below "k").ranges.map Range.index ∧ "m" ∉ Aggregation.indexNames (below "k") ∧
    AlikeUpTo Error.SameKind (Aggregation.eval Constraint.pairing level (below "k"))
      (Aggregation.eval Constraint.pairing level ((below "k").renameBound (.replace "i" "m"))) := by
  have hj : "k" ∉ (Constraint.rebinding "j").indexNames := by decide
  have hm : "k" ∉ (Constraint.rebinding "m").indexNames := by decide
  have hi : "i" ∈ (below "k").ranges.map Range.index := by decide
  have hfresh : "m" ∉ Aggregation.indexNames (below "k") := by decide
  exact ⟨rfl, rfl, rfl, rfl, rfl, hj, (rename_bound_alike Constraint.pairing "i" "k").1 _ hj,
    hm, (rename_bound_alike Constraint.pairing "i" "k").1 _ hm,
    hi, hfresh, (rename_bound_alike Constraint.pairing "i" "m").2 level _ hi hfresh⟩

end Milp
