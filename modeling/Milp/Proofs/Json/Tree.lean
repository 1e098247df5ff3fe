import Mathlib
import Milp.Json.Basic

/-! JSON values as trees. A property of whole trees is one that every part has. Values may be shown
with the fields of objects in another order; nothing but that order is lost. -/
namespace Milp.Json

def children : Json → List Json
  | array items _ => items
  | object fields _ => fields.map Prod.snd
  | _ => []

inductive Every (p : Json → Prop) : Json → Prop
  | intro {j : Json} : p j → (∀ v ∈ j.children, Every p v) → Every p j

def Finite (j : Json) : Prop := ∀ x, j = .float x → x.isFinite = true

theorem finite_array (items : List Json) (closed : Bool) : (array items closed).Finite := nofun

theorem finite_object (fields : List (String × Json)) (closed : Bool) :
    (object fields closed).Finite := nofun

/-- Whether a value is in one piece, and its fields have distinct names. -/
def Tidy : Json → Prop
  | array _ closed => closed = true
  | object fields closed => closed = true ∧ (fields.map Prod.fst).Nodup
  | torn => False
  | _ => True

def isClosed : Json → Bool
  | array _ closed => closed
  | object _ closed => closed
  | torn => false
  | _ => true

namespace Every

variable {p : Json → Prop} {j : Json}

theorem own (h : Every p j) : p j := by
  cases h with
  | intro hown _ => exact hown

theorem child (h : Every p j) {v : Json} (hv : v ∈ j.children) : Every p v := by
  cases h with
  | intro _ hparts => exact hparts v hv

theorem leaf (h : p j) (hj : j.children = []) : Every p j := by
  refine intro h fun v hv => ?_
  rw [hj] at hv
  cases hv

end Every

/-! ### Depth and completeness -/

theorem depthItems_le {items : List Json} {n : Nat} :
    depthItems items ≤ n ↔ ∀ v ∈ items, v.depth ≤ n := by
  induction items with
  | nil => simp [depthItems]
  | cons v items ih => rw [depthItems, Nat.max_le, ih, List.forall_mem_cons]

theorem depthItems_perm {items items' : List Json} (h : items.Perm items') :
    depthItems items = depthItems items' := by
  refine eq_of_forall_ge_iff fun n => ?_
  rw [depthItems_le, depthItems_le]
  exact forall_congr' fun v => imp_congr_left h.mem_iff

theorem depthItems_map {f : Json → Json} {items : List Json}
    (h : ∀ v ∈ items, (f v).depth = v.depth) : depthItems (items.map f) = depthItems items := by
  induction items with
  | nil => rfl
  | cons v items ih =>
    rw [List.forall_mem_cons] at h
    rw [List.map_cons, depthItems, depthItems, h.1, ih h.2]

theorem depthFields_eq (fields : List (String × Json)) :
    depthFields fields = depthItems (fields.map Prod.snd) := by
  induction fields with
  | nil => rfl
  | cons field fields ih => rw [depthFields, ih, List.map_cons, depthItems]

/-- A value is as deep as its children and one more. -/
theorem depth_le_succ {j : Json} {n : Nat} :
    j.depth ≤ n + 1 ↔ ∀ v ∈ j.children, v.depth ≤ n := by
  cases j with
  | array items closed => rw [depth, children, Nat.succ_le_succ_iff, depthItems_le]
  | object fields closed =>
    rw [depth, children, depthFields_eq, Nat.succ_le_succ_iff, depthItems_le]
  | _ => simp [depth, children]

theorem depth_lt_of_mem_children {j v : Json} (h : v ∈ j.children) : v.depth < j.depth := by
  cases hd : j.depth with
  | zero =>
    cases j with
    | array items closed => simp [depth] at hd
    | object fields closed => simp [depth] at hd
    | _ => cases h
  | succ n => exact Nat.lt_succ_of_le (depth_le_succ.mp hd.le v h)

theorem wholeItems_of_forall {items : List Json} (h : ∀ v ∈ items, v.whole = true) :
    wholeItems items = true := by
  induction items with
  | nil => rfl
  | cons v items ih =>
    rw [List.forall_mem_cons] at h
    rw [wholeItems, h.1, ih h.2]
    rfl

theorem wholeFields_eq (fields : List (String × Json)) :
    wholeFields fields = wholeItems (fields.map Prod.snd) := by
  induction fields with
  | nil => rfl
  | cons field fields ih => rw [wholeFields, ih, List.map_cons, wholeItems]

/-- A value in one piece was read in full. -/
theorem whole_of_tidy {j : Json} (h : Every Tidy j) : j.whole = true := by
  induction h with
  | @intro j hown _ ih =>
    cases j with
    | array items closed =>
      have hclosed : closed = true := hown
      have hitems : wholeItems items = true := wholeItems_of_forall ih
      rw [whole, hclosed, hitems]
      rfl
    | object fields closed =>
      have hclosed : closed = true := hown.1
      have hfields : wholeItems (fields.map Prod.snd) = true := wholeItems_of_forall ih
      rw [whole, hclosed, wholeFields_eq, hfields]
      rfl
    | torn => cases hown
    | _ => rfl

/-! ### Arrangements -/

/-- A way of showing values that keeps everything but the order of fields. -/
structure Arrangement (f : Json → Json) : Prop where
  null : f null = null
  bool : ∀ b, f (bool b) = bool b
  int : ∀ n, f (int n) = int n
  float : ∀ x, f (float x) = float x
  string : ∀ s, f (string s) = string s
  array : ∀ items, f (array items) = array (items.map f)
  object : ∀ fields, (fields.map Prod.fst).Nodup →
    ∃ shown, f (object fields) = object shown ∧ shown.Perm (fields.map fun x => (x.1, f x.2))

/-- Showing values as they are. -/
theorem Arrangement.same : Arrangement fun j => j where
  null := rfl
  bool _ := rfl
  int _ := rfl
  float _ := rfl
  string _ := rfl
  array items := by rw [List.map_id']
  object fields _ := ⟨fields, rfl, by rw [List.map_id']⟩

theorem insertField_perm {name : String} (value : Json) {sorted : List (String × Json)}
    (h : name ∉ sorted.map Prod.fst) :
    (insertField name value sorted).Perm ((name, value) :: sorted) := by
  induction sorted with
  | nil => exact .refl _
  | cons field sorted ih =>
    obtain ⟨n, v⟩ := field
    rw [List.map_cons, List.mem_cons, not_or] at h
    rw [insertField]
    split
    · exact .refl _
    · split
      · exact ((ih h.2).cons _).trans (.swap _ _ _)
      · exact absurd (le_antisymm (not_lt.mp ‹_›) (not_lt.mp ‹_›)) h.1

theorem normalFields_perm {fields sorted : List (String × Json)}
    (h : ((sorted ++ fields).map Prod.fst).Nodup) :
    (normalFields sorted fields).Perm (sorted ++ fields.map fun x => (x.1, x.2.normal)) := by
  induction fields generalizing sorted with
  | nil => rw [normalFields, List.map_nil, List.append_nil]
  | cons field fields ih =>
    obtain ⟨name, v⟩ := field
    have hmiddle : (sorted ++ (name, v) :: fields).Perm ((name, v) :: (sorted ++ fields)) :=
      List.perm_middle
    have hnodup := (hmiddle.map Prod.fst).nodup_iff.mp h
    rw [List.map_cons, List.nodup_cons, List.map_append, List.mem_append, not_or] at hnodup
    have hinsert := insertField_perm v.normal hnodup.1.1
    have hsorted : ((insertField name v.normal sorted ++ fields).map Prod.fst).Nodup := by
      refine ((hinsert.append_right fields).map Prod.fst).nodup_iff.mpr ?_
      rw [List.cons_append, List.map_cons, List.map_append, List.nodup_cons, List.mem_append,
        not_or]
      exact hnodup
    rw [normalFields, List.map_cons]
    refine (ih hsorted).trans ((hinsert.append_right _).trans ?_)
    exact List.perm_middle.symm

theorem normalItems_eq (items : List Json) : normalItems items = items.map normal := by
  induction items with
  | nil => rfl
  | cons v items ih => rw [normalItems, ih, List.map_cons]

/-- Showing values with the fields of each object sorted. -/
theorem Arrangement.normal : Arrangement normal where
  null := rfl
  bool _ := rfl
  int _ := rfl
  float _ := rfl
  string _ := rfl
  array items := by rw [Json.normal, normalItems_eq]
  object fields h := by
    refine ⟨normalFields [] fields, by rw [Json.normal], ?_⟩
    have hperm : (normalFields [] fields).Perm ([] ++ fields.map fun x => (x.1, x.2.normal)) :=
      normalFields_perm h
    exact hperm

namespace Arrangement

variable {f : Json → Json}

/-- A scalar is shown as itself, an array as one of what its elements are shown as, and an object as
one whose fields are those that its fields are shown as, in some order. -/
theorem cases (hf : Arrangement f) {j : Json} (h : j.Tidy) :
    (f j = j ∧ j.children = []) ∨
      (∃ items, j = .array items ∧ f j = .array (items.map f)) ∨
      ∃ fields shown, j = .object fields ∧ (fields.map Prod.fst).Nodup ∧ f j = .object shown ∧
        shown.Perm (fields.map fun x => (x.1, f x.2)) := by
  cases j with
  | null => exact .inl ⟨hf.null, rfl⟩
  | bool b => exact .inl ⟨hf.bool b, rfl⟩
  | int n => exact .inl ⟨hf.int n, rfl⟩
  | float x => exact .inl ⟨hf.float x, rfl⟩
  | string s => exact .inl ⟨hf.string s, rfl⟩
  | array items closed =>
    have hclosed : closed = true := h
    rw [hclosed]
    exact .inr (.inl ⟨items, rfl, hf.array items⟩)
  | object fields closed =>
    obtain ⟨rfl, hnames⟩ := h
    obtain ⟨shown, hshown, hperm⟩ := hf.object fields hnames
    exact .inr (.inr ⟨fields, shown, rfl, hnames, hshown, hperm⟩)
  | torn => cases h

theorem perm_values {fields shown : List (String × Json)}
    (h : shown.Perm (fields.map fun x => (x.1, f x.2))) :
    (shown.map Prod.snd).Perm ((fields.map Prod.snd).map f) := by
  have hvalues := h.map Prod.snd
  rw [List.map_map] at hvalues
  rw [List.map_map]
  exact hvalues

/-- The children of a value are shown as the children of what it is shown as. -/
theorem children (hf : Arrangement f) {j : Json} (h : j.Tidy) :
    (f j).children.Perm (j.children.map f) := by
  obtain ⟨hsame, hnone⟩ | ⟨items, rfl, hshown⟩ | ⟨fields, shown, rfl, _, hshown, hperm⟩ :=
    hf.cases h
  · rw [hsame, hnone]
    exact .refl _
  · rw [hshown]
    exact .refl _
  · rw [hshown]
    exact perm_values hperm

theorem tidy (hf : Arrangement f) {j : Json} (h : j.Tidy) : (f j).Tidy := by
  obtain ⟨hsame, _⟩ | ⟨items, rfl, hshown⟩ | ⟨fields, shown, rfl, hnames, hshown, hperm⟩ :=
    hf.cases h
  · rwa [hsame]
  · rw [hshown]
    exact rfl
  · rw [hshown]
    have hfields := hperm.map Prod.fst
    rw [List.map_map] at hfields
    exact ⟨rfl, hfields.nodup_iff.mpr hnames⟩

theorem every_tidy (hf : Arrangement f) {j : Json} (h : Every Tidy j) : Every Tidy (f j) := by
  induction h with
  | @intro j hown _ ih =>
    refine .intro (hf.tidy hown) fun v hv => ?_
    obtain ⟨w, hw, rfl⟩ := List.mem_map.mp ((hf.children hown).mem_iff.mp hv)
    exact ih w hw

theorem depth (hf : Arrangement f) {j : Json} (h : Every Tidy j) : (f j).depth = j.depth := by
  induction h with
  | @intro j hown _ ih =>
    have hchildren : depthItems (f j).children = depthItems j.children := by
      rw [depthItems_perm (hf.children hown), depthItems_map ih]
    obtain ⟨hsame, _⟩ | ⟨items, rfl, hshown⟩ | ⟨fields, shown, rfl, _, hshown, _⟩ := hf.cases hown
    · rw [hsame]
    · rw [hshown] at hchildren ⊢
      exact congrArg Nat.succ hchildren
    · rw [hshown] at hchildren ⊢
      rw [Json.depth, Json.depth, depthFields_eq, depthFields_eq]
      exact congrArg Nat.succ hchildren

end Arrangement

end Milp.Json
