import Milp.Constraint
import Milp.Proofs.Expr.Induction

/-! Names of index variables in expressions. An aggregation binds the names of its ranges in its
body and in its condition; where no aggregation binds it, a name is free. Renaming changes free names
and leaves alone what an aggregation has bound. -/
namespace Milp

mutual

/-- The names of index variables that no aggregation of the expression binds, with repetitions. -/
def Expr.freeNames : Expr → List String
  | .number _ => []
  | .string _ => []
  | .indexVar name => [name]
  | .ref _ _ => []
  | .refAt _ _ positions => Expr.freeNamesAll positions
  | .unary _ e => e.freeNames
  | .binary _ l r => l.freeNames ++ r.freeNames
  | .aggregate a => Aggregation.freeNames a

def Expr.freeNamesAll : List Expr → List String
  | [] => []
  | e :: es => e.freeNames ++ Expr.freeNamesAll es

def Aggregation.freeNames : Aggregation Expr → List String
  | ⟨_, body, ranges, condition⟩ =>
    (Condition.freeNames condition ++ body.freeNames).filter fun name =>
      name ∉ ranges.map Range.index

def Condition.freeNames : Option (Comparison Expr) → List String
  | none => []
  | some c => Comparison.freeNames c

def Comparison.freeNames : Comparison Expr → List String
  | ⟨_, l, _, r⟩ => l.freeNames ++ r.freeNames

end

mutual

def Expr.indexNames : Expr → List String
  | .number _ => []
  | .string _ => []
  | .indexVar name => [name]
  | .ref _ _ => []
  | .refAt _ _ positions => Expr.indexNamesAll positions
  | .unary _ e => e.indexNames
  | .binary _ l r => l.indexNames ++ r.indexNames
  | .aggregate a => Aggregation.indexNames a

def Expr.indexNamesAll : List Expr → List String
  | [] => []
  | e :: es => e.indexNames ++ Expr.indexNamesAll es

def Aggregation.indexNames : Aggregation Expr → List String
  | ⟨_, body, ranges, condition⟩ =>
    ranges.map Range.index ++ (Condition.indexNames condition ++ body.indexNames)

def Condition.indexNames : Option (Comparison Expr) → List String
  | none => []
  | some c => Comparison.indexNames c

def Comparison.indexNames : Comparison Expr → List String
  | ⟨_, l, _, r⟩ => l.indexNames ++ r.indexNames

end

mutual

/-- The names that aggregations of the expression bind, at any depth. -/
def Expr.boundNames : Expr → List String
  | .number _ => []
  | .string _ => []
  | .indexVar _ => []
  | .ref _ _ => []
  | .refAt _ _ positions => Expr.boundNamesAll positions
  | .unary _ e => e.boundNames
  | .binary _ l r => l.boundNames ++ r.boundNames
  | .aggregate a => Aggregation.boundNames a

def Expr.boundNamesAll : List Expr → List String
  | [] => []
  | e :: es => e.boundNames ++ Expr.boundNamesAll es

def Aggregation.boundNames : Aggregation Expr → List String
  | ⟨_, body, ranges, condition⟩ =>
    ranges.map Range.index ++ (Condition.boundNames condition ++ body.boundNames)

def Condition.boundNames : Option (Comparison Expr) → List String
  | none => []
  | some c => Comparison.boundNames c

def Comparison.boundNames : Comparison Expr → List String
  | ⟨_, l, _, r⟩ => l.boundNames ++ r.boundNames

end

abbrev Renaming := String → String

namespace Renaming

def replace (i j : String) : Renaming := fun name => if name = i then j else name

/-- The renaming that is left where names are bound. -/
def under (ρ : Renaming) (bound : List String) : Renaming := fun name =>
  if name ∈ bound then name else ρ name

theorem under_of_mem {ρ : Renaming} {bound : List String} {name : String} (h : name ∈ bound) :
    ρ.under bound name = name := if_pos h

theorem under_of_notMem {ρ : Renaming} {bound : List String} {name : String} (h : name ∉ bound) :
    ρ.under bound name = ρ name := if_neg h

theorem under_id (bound : List String) : under id bound = id := by
  funext name
  by_cases h : name ∈ bound
  · exact under_of_mem h
  · exact under_of_notMem h

theorem replace_self (i j : String) : replace i j i = j := if_pos rfl

theorem replace_of_ne {i j name : String} (h : name ≠ i) : replace i j name = name := if_neg h

/-- A fresh name is not confused with others. -/
theorem replace_eq_iff {i j a b : String} (ha : a ≠ j) (hb : b ≠ j) :
    replace i j a = replace i j b ↔ a = b := by
  by_cases hai : a = i
  · subst hai
    by_cases hba : b = a
    · rw [hba]
      exact iff_of_true rfl rfl
    · rw [replace_self, replace_of_ne hba]
      exact iff_of_false (Ne.symm hb) (Ne.symm hba)
  · rw [replace_of_ne hai]
    by_cases hbi : b = i
    · rw [hbi, replace_self]
      exact iff_of_false ha hai
    · rw [replace_of_ne hbi]

end Renaming

mutual

/-- Renames free index variables. A name that an aggregation binds stays as it is in there. -/
def Expr.rename (ρ : Renaming) : Expr → Expr
  | .number n => .number n
  | .string s => .string s
  | .indexVar name => .indexVar (ρ name)
  | .ref kind name => .ref kind name
  | .refAt kind name positions => .refAt kind name (Expr.renameAll ρ positions)
  | .unary op e => .unary op (e.rename ρ)
  | .binary op l r => .binary op (l.rename ρ) (r.rename ρ)
  | .aggregate a => .aggregate (Aggregation.rename ρ a)

def Expr.renameAll (ρ : Renaming) : List Expr → List Expr
  | [] => []
  | e :: es => e.rename ρ :: Expr.renameAll ρ es

def Aggregation.rename (ρ : Renaming) : Aggregation Expr → Aggregation Expr
  | ⟨op, body, ranges, condition⟩ =>
    ⟨op, body.rename (ρ.under (ranges.map Range.index)), ranges,
      Condition.rename (ρ.under (ranges.map Range.index)) condition⟩

def Condition.rename (ρ : Renaming) : Option (Comparison Expr) → Option (Comparison Expr)
  | none => none
  | some c => some (Comparison.rename ρ c)

def Comparison.rename (ρ : Renaming) : Comparison Expr → Comparison Expr
  | ⟨form, l, relation, r⟩ => ⟨form, l.rename ρ, relation, r.rename ρ⟩

end

theorem Expr.mem_freeNamesAll {es : List Expr} {name : String} :
    name ∈ freeNamesAll es ↔ ∃ e ∈ es, name ∈ e.freeNames := by
  induction es with
  | nil => simp [freeNamesAll]
  | cons e es ih => simp [freeNamesAll, ih]

theorem Expr.mem_indexNamesAll {es : List Expr} {name : String} :
    name ∈ indexNamesAll es ↔ ∃ e ∈ es, name ∈ e.indexNames := by
  induction es with
  | nil => simp [indexNamesAll]
  | cons e es ih => simp [indexNamesAll, ih]

theorem Expr.mem_boundNamesAll {es : List Expr} {name : String} :
    name ∈ boundNamesAll es ↔ ∃ e ∈ es, name ∈ e.boundNames := by
  induction es with
  | nil => simp [boundNamesAll]
  | cons e es ih => simp [boundNamesAll, ih]

theorem Expr.renameAll_eq_map (ρ : Renaming) (es : List Expr) :
    renameAll ρ es = es.map (Expr.rename ρ) := by
  induction es with
  | nil => rfl
  | cons e es ih => rw [renameAll, ih, List.map_cons]

theorem Comparison.mem_freeNames {c : Comparison Expr} {name : String} :
    name ∈ freeNames c ↔ name ∈ c.left.freeNames ∨ name ∈ c.right.freeNames := by
  obtain ⟨form, l, relation, r⟩ := c
  exact List.mem_append

theorem Comparison.mem_indexNames {c : Comparison Expr} {name : String} :
    name ∈ indexNames c ↔ name ∈ c.left.indexNames ∨ name ∈ c.right.indexNames := by
  obtain ⟨form, l, relation, r⟩ := c
  exact List.mem_append

theorem Comparison.mem_boundNames {c : Comparison Expr} {name : String} :
    name ∈ boundNames c ↔ name ∈ c.left.boundNames ∨ name ∈ c.right.boundNames := by
  obtain ⟨form, l, relation, r⟩ := c
  exact List.mem_append

theorem Aggregation.mem_freeNames {op : Aggregator} {body : Expr} {ranges : List Range}
    {condition : Option (Comparison Expr)} {name : String} :
    name ∈ freeNames ⟨op, body, ranges, condition⟩ ↔
      (name ∈ Condition.freeNames condition ∨ name ∈ body.freeNames) ∧
        name ∉ ranges.map Range.index := by
  rw [freeNames, List.mem_filter, List.mem_append, decide_eq_true_iff]

/-- Free names are among all names. -/
theorem Expr.freeNames_subset (e : Expr) : e.freeNames ⊆ e.indexNames := by
  induction e with
  | number n => exact List.Subset.refl _
  | string s => exact List.Subset.refl _
  | indexVar name => exact List.Subset.refl _
  | ref kind name => exact List.Subset.refl _
  | refAt kind name positions ih =>
    intro n hn
    obtain ⟨e, he, hfree⟩ := mem_freeNamesAll.mp hn
    exact mem_indexNamesAll.mpr ⟨e, he, ih e he hfree⟩
  | unary op e ih => exact ih
  | binary op l r ihl ihr =>
    intro n hn
    exact List.mem_append.mpr ((List.mem_append.mp hn).imp (fun h => ihl h) fun h => ihr h)
  | aggregate op body ranges condition ih ihc =>
    intro n hn
    obtain ⟨hfree, _⟩ := Aggregation.mem_freeNames.mp hn
    refine List.mem_append_right _ (List.mem_append.mpr (hfree.imp ?_ fun hbody => ih hbody))
    intro hcondition
    cases condition with
    | none => exact hcondition
    | some c =>
      obtain ⟨hl, hr⟩ := ihc c rfl
      exact Comparison.mem_indexNames.mpr
        ((Comparison.mem_freeNames.mp hcondition).imp (fun h => hl h) fun h => hr h)

theorem Comparison.freeNames_subset (c : Comparison Expr) : freeNames c ⊆ indexNames c := by
  intro name h
  refine mem_indexNames.mpr ((mem_freeNames.mp h).imp ?_ ?_)
  · exact fun h => c.left.freeNames_subset h
  · exact fun h => c.right.freeNames_subset h

theorem Condition.freeNames_subset (condition : Option (Comparison Expr)) :
    freeNames condition ⊆ indexNames condition := by
  cases condition with
  | none => exact List.Subset.refl _
  | some c => exact c.freeNames_subset

/-- Renaming every name to itself changes nothing. -/
theorem Expr.rename_id (e : Expr) : e.rename id = e := by
  induction e with
  | number n => rfl
  | string s => rfl
  | indexVar name => rfl
  | ref kind name => rfl
  | refAt kind name positions ih =>
    rw [rename, renameAll_eq_map, List.map_congr_left ih, List.map_id']
  | unary op e ih => rw [rename, ih]
  | binary op l r ihl ihr => rw [rename, ihl, ihr]
  | aggregate op body ranges condition ih ihc =>
    rw [rename, Aggregation.rename, Renaming.under_id, ih]
    cases condition with
    | none => rfl
    | some c =>
      obtain ⟨hl, hr⟩ := ihc c rfl
      rw [Condition.rename, Comparison.rename, hl, hr]

theorem Comparison.rename_id (c : Comparison Expr) : rename id c = c := by
  obtain ⟨form, l, relation, r⟩ := c
  rw [rename, l.rename_id, r.rename_id]

theorem Condition.rename_id (condition : Option (Comparison Expr)) :
    rename id condition = condition := by
  cases condition with
  | none => rfl
  | some c => rw [rename, c.rename_id]

end Milp
