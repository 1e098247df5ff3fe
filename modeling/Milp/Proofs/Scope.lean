import Mathlib
import Milp.Proofs.Expr.IndexNames
import Milp.Proofs.Registry
import Milp.Scope

/-! Lookups in scopes. A layer that binds a list of names to the components of a tuple answers for
these names and leaves all others to the scope below, so that two scopes that agree through a
renaming still do below the same binder. -/
namespace Milp

namespace Scope

theorem get?_child (outer : Scope) (bs : Bindings) (name : String) :
    (outer.child bs).get? name =
      ((bs.reverse.find? fun b => b.1 == name).map Prod.snd).or (outer.get? name) := by
  rw [child, get?]
  cases bs.reverse.find? fun b => b.1 == name <;> rfl

/-- Two layers answer as one layer with the bindings of both. -/
theorem get?_child_append (outer : Scope) (bs bs' : Bindings) (name : String) :
    (outer.child (bs ++ bs')).get? name = ((outer.child bs).child bs').get? name := by
  rw [get?_child, get?_child, get?_child, List.reverse_append, List.find?_append, Option.map_or,
    Option.or_assoc]

/-- The order of bindings does not matter where no name is bound twice. -/
theorem get?_child_perm (outer : Scope) {bs bs' : Bindings} (h : bs.Perm bs')
    (hdistinct : (bs.map Prod.fst).Nodup) (name : String) :
    (outer.child bs').get? name = (outer.child bs).get? name := by
  have hfind : (bs'.reverse.find? fun b => b.1 == name) = bs.reverse.find? fun b => b.1 == name := by
    have hreverse : (bs.reverse.map Prod.fst).Nodup := by
      rw [List.map_reverse, List.nodup_reverse]
      exact hdistinct
    have hreverse' : (bs'.reverse.map Prod.fst).Nodup := by
      rw [List.map_reverse, List.nodup_reverse]
      exact (h.map Prod.fst).nodup hdistinct
    ext b
    rw [find?_key_eq_some hreverse, find?_key_eq_some hreverse', List.mem_reverse,
      List.mem_reverse, h.mem_iff]
  rw [get?_child, get?_child, hfind]

/-- Where no name stands twice, a name is bound to the component at its position. -/
theorem get?_zip {names : List String} (h : names.Nodup) {t : Tuple} (hlen : t.length = names.length)
    (name : String) : get? [names.zip t] name = t[names.idxOf name]? := by
  have hchild : get? [names.zip t] name =
      ((names.zip t).reverse.find? fun b => b.1 == name).map Prod.snd := by
    have hroot := get?_child root (names.zip t) name
    rwa [root, get?, Option.or_none] at hroot
  rw [hchild]
  clear hchild
  induction names generalizing t with
  | nil => simp [List.length_eq_zero_iff.mp hlen]
  | cons a as ih =>
    obtain ⟨x, t, rfl⟩ := List.exists_cons_of_length_eq_add_one hlen
    obtain ⟨ha, has⟩ := List.nodup_cons.mp h
    have hlen' : t.length = as.length := Nat.succ.inj hlen
    rw [List.zip_cons_cons, List.reverse_cons, List.find?_append, Option.map_or, ih has hlen']
    by_cases hname : a = name
    · subst hname
      simp [List.idxOf_eq_length ha, hlen']
    · simp [List.idxOf_cons_ne, hname]

/-- A layer answers for every name that it binds. -/
private theorem find?_zip_isSome {names : List String} {t : Tuple} (hlen : t.length = names.length)
    {name : String} (h : name ∈ names) :
    ((names.zip t).reverse.find? fun b => b.1 == name).isSome = true := by
  rw [List.find?_isSome]
  rw [← List.map_fst_zip hlen.ge, List.mem_map] at h
  obtain ⟨b, hb, rfl⟩ := h
  exact ⟨b, List.mem_reverse.mpr hb, beq_self_eq_true _⟩

theorem isSome_get?_child_zip {outer : Scope} {names : List String} {t : Tuple}
    (hlen : t.length = names.length) {name : String} (h : name ∈ names) :
    ((outer.child (names.zip t)).get? name).isSome = true := by
  rw [get?_child, Option.isSome_or, Option.isSome_map, find?_zip_isSome hlen h, Bool.true_or]

/-- Names that stand at the same places of two lists are bound to the same components. -/
private theorem find?_zip_congr {names names' : List String} {name name' : String}
    (h : List.Forall₂ (fun a b => a = name ↔ b = name') names names') (t : Tuple) :
    ((names.zip t).reverse.find? fun b => b.1 == name).map Prod.snd =
      ((names'.zip t).reverse.find? fun b => b.1 == name').map Prod.snd := by
  induction h generalizing t with
  | nil => rfl
  | @cons a b as bs hab _ ih =>
    cases t with
    | nil => rfl
    | cons x t =>
      simp only [List.zip_cons_cons, List.reverse_cons, List.find?_append, Option.map_or, ih t]
      by_cases ha : a = name
      · simp [ha, hab.mp ha]
      · simp [ha, mt hab.mpr ha]

/-- Two scopes with a layer of names each answer alike for a name and its counterpart. -/
theorem get?_child_congr {s s' : Scope} {names names' : List String} {name name' : String}
    (h : List.Forall₂ (fun a b => a = name ↔ b = name') names names') {t : Tuple}
    (hlen : t.length = names.length)
    (houter : name ∉ names → s'.get? name' = s.get? name) :
    (s'.child (names'.zip t)).get? name' = (s.child (names.zip t)).get? name := by
  rw [get?_child, get?_child, ← find?_zip_congr h t]
  by_cases hmem : name ∈ names
  · obtain ⟨b, hb⟩ := Option.isSome_iff_exists.mp (find?_zip_isSome hlen hmem)
    rw [hb, Option.map_some, Option.some_or, Option.some_or]
  · rw [houter hmem]

end Scope

/-- Whether a scope answers for the renamed free names as another one does for the names themselves,
and no renamed name is captured. -/
structure Renaming.Fits (ρ : Renaming) (free all : List String) (s s' : Scope) : Prop where
  lookup : ∀ name ∈ free, s'.get? (ρ name) = s.get? name
  /-- A name is left alone or becomes one that occurs nowhere. -/
  apart : ∀ name ∈ free, ρ name = name ∨ ρ name ∉ all

namespace Renaming.Fits

variable {ρ : Renaming} {free free' all all' : List String} {s s' : Scope}

/-- Where two scopes give the same value to every name, nothing has to be renamed. -/
theorem of_same (h : ∀ name, s'.get? name = s.get? name) : Renaming.Fits id free all s s' where
  lookup name _ := h name
  apart _ _ := .inl rfl

theorem mono (h : ρ.Fits free all s s') (hfree : free' ⊆ free) (hall : all' ⊆ all) :
    ρ.Fits free' all' s s' where
  lookup name hname := h.lookup name (hfree hname)
  apart name hname := (h.apart name (hfree hname)).imp_right (mt fun hmem => hall hmem)

theorem left (h : ρ.Fits (free ++ free') (all ++ all') s s') : ρ.Fits free all s s' :=
  h.mono (List.subset_append_left _ _) (List.subset_append_left _ _)

theorem right (h : ρ.Fits (free ++ free') (all ++ all') s s') : ρ.Fits free' all' s s' :=
  h.mono (List.subset_append_right _ _) (List.subset_append_right _ _)

/-- Under a binder, what it binds is no longer renamed. -/
theorem child (h : ρ.Fits free all s s') {bound : List String}
    (hfree : ∀ name ∈ free', name ∉ bound → name ∈ free) (hbound : bound ⊆ all)
    (hall : all' ⊆ all) {t : Tuple} (hlen : t.length = bound.length) :
    (ρ.under bound).Fits free' all' (s.child (bound.zip t)) (s'.child (bound.zip t)) where
  lookup name hname := by
    refine Scope.get?_child_congr ?_ hlen fun hmem => ?_
    · rw [List.forall₂_same]
      intro a ha
      by_cases hmem : name ∈ bound
      · rw [under_of_mem hmem]
      · rw [under_of_notMem hmem]
        have hne : a ≠ name := fun h => hmem (h ▸ ha)
        rcases h.apart name (hfree name hname hmem) with hself | hfresh
        · rw [hself]
        · exact iff_of_false hne fun h => hfresh (h ▸ hbound ha)
    · rw [under_of_notMem hmem]
      exact h.lookup name (hfree name hname hmem)
  apart name hname := by
    by_cases hmem : name ∈ bound
    · exact .inl (under_of_mem hmem)
    · rw [under_of_notMem hmem]
      exact (h.apart name (hfree name hname hmem)).imp_right (mt fun hmem => hall hmem)

/-- A name can be replaced by one that occurs nowhere. -/
theorem of_replace {i j : String} (hfree : free ⊆ all) (hall : j ∉ all)
    (hlookup : ∀ name ∈ free, name ≠ j → s'.get? (replace i j name) = s.get? name) :
    (replace i j).Fits free all s s' where
  lookup name hname := hlookup name hname fun h => hall (h ▸ hfree hname)
  apart name _ := by
    by_cases h : name = i
    · rw [h, replace_self]
      exact .inr hall
    · exact .inl (replace_of_ne h)

/-- A binder can be renamed to a name that occurs nowhere, together with what it binds. -/
theorem binder {i j : String} {bound : List String} (hfree : free ⊆ all) (hall : j ∉ all)
    (hbound : j ∉ bound)
    (houter : ∀ name ∈ free, name ∉ bound → s'.get? (replace i j name) = s.get? name)
    {t : Tuple} (hlen : t.length = bound.length) :
    (replace i j).Fits free all (s.child (bound.zip t))
      (s'.child ((bound.map (replace i j)).zip t)) := by
  refine of_replace hfree hall fun name hname hne => ?_
  refine Scope.get?_child_congr ?_ hlen (houter name hname)
  rw [List.forall₂_map_right_iff, List.forall₂_same]
  intro a ha
  have ha' : a ≠ j := fun h => hbound (h ▸ ha)
  exact (replace_eq_iff ha' hne).symm

end Renaming.Fits

end Milp
