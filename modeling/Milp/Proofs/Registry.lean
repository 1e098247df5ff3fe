import Milp.Registry
import Mathlib

/-! Registries keep their names apart: every operation on a registry without repeated names gives
one again, and there a lookup finds the entry of that name, whichever place it stands in. The
registry of a list holds each name of it once, in the place where the name occurs first, with the
last of its definitions. -/
namespace Milp

/-- Where no key occurs twice, a search by key finds the one entry that has it. -/
theorem find?_key_eq_some {α κ : Type} [BEq κ] [LawfulBEq κ] {key : α → κ} {xs : List α}
    (h : (xs.map key).Nodup) {k : κ} {x : α} :
    xs.find? (fun y => key y == k) = some x ↔ x ∈ xs ∧ key x = k := by
  induction xs with
  | nil => simp
  | cons y ys ih =>
    rw [List.map_cons, List.nodup_cons] at h
    by_cases hy : key y = k
    · rw [List.find?_cons_of_pos (by simpa using hy), Option.some.injEq]
      constructor
      · rintro rfl
        exact ⟨List.mem_cons_self, hy⟩
      · rintro ⟨hx, hk⟩
        rcases List.mem_cons.mp hx with rfl | hx
        · rfl
        · have hmem : key y ∈ ys.map key := hy.trans hk.symm ▸ List.mem_map_of_mem hx
          exact absurd hmem h.1
    · rw [List.find?_cons_of_neg (by simpa using hy), ih h.2, List.mem_cons]
      constructor
      · exact fun ⟨hx, hk⟩ => ⟨.inr hx, hk⟩
      · rintro ⟨rfl | hx, hk⟩
        · exact absurd hk hy
        · exact ⟨hx, hk⟩

/-- An item of a list with one item more at its end is that one, or stands before it. -/
theorem append_singleton_eq_append_cons {α : Type} {xs before after : List α} {x y : α} :
    xs ++ [x] = before ++ y :: after ↔
      (after = [] ∧ xs = before ∧ x = y) ∨
        ∃ rest, after = rest ++ [x] ∧ xs = before ++ y :: rest := by
  constructor
  · intro h
    rcases List.eq_nil_or_concat after with rfl | ⟨rest, last, rfl⟩
    · obtain ⟨rfl, hlast⟩ := List.append_inj' h rfl
      cases hlast
      exact .inl ⟨rfl, rfl, rfl⟩
    · rw [List.concat_eq_append, ← List.cons_append, ← List.append_assoc] at h
      obtain ⟨rfl, hlast⟩ := List.append_inj' h rfl
      cases hlast
      exact .inr ⟨rest, List.concat_eq_append, rfl⟩
  · rintro (⟨rfl, rfl, rfl⟩ | ⟨rest, rfl, rfl⟩)
    · rfl
    · rw [List.append_assoc, List.cons_append]

end Milp

namespace Milp.Registry

variable {α : Type} [Named α]

def Unique (r : Registry α) : Prop := r.names.Nodup

theorem mem_place {x y : α} {xs : List α} (h : y ∈ place x xs) : y = x ∨ y ∈ xs := by
  induction xs with
  | nil => exact .inl (List.mem_singleton.mp h)
  | cons z zs ih =>
    rw [place] at h
    split at h
    · exact (List.mem_cons.mp h).imp_right (List.mem_cons_of_mem _)
    · rcases List.mem_cons.mp h with rfl | h
      · exact .inr List.mem_cons_self
      · exact (ih h).imp_right (List.mem_cons_of_mem _)

/-- A new name goes to the end, and a name that is there keeps its place. -/
theorem map_name_place (x : α) (xs : List α) :
    (place x xs).map Named.name =
      if Named.name x ∈ xs.map Named.name then xs.map Named.name
      else xs.map Named.name ++ [Named.name x] := by
  induction xs with
  | nil => simp [place]
  | cons y ys ih =>
    rw [place]
    by_cases h : Named.name y = Named.name x
    · simp [h]
    · have h' : Named.name x ≠ Named.name y := fun he => h he.symm
      rw [if_neg h, List.map_cons, ih]
      by_cases hmem : Named.name x ∈ ys.map Named.name
      · rw [if_pos hmem, if_pos (by simp [hmem]), List.map_cons]
      · rw [if_neg hmem, if_neg (by simp [h', hmem])]
        rfl

theorem place_of_fresh {x : α} {xs : List α} (h : Named.name x ∉ xs.map Named.name) :
    place x xs = xs ++ [x] := by
  induction xs with
  | nil => rfl
  | cons y ys ih =>
    rw [List.map_cons, List.mem_cons, not_or] at h
    rw [place, if_neg fun he => h.1 he.symm, ih h.2, List.cons_append]

/-- The first entry of a name is the one that is replaced. -/
theorem place_append_cons {x y : α} {before : List α} (after : List α)
    (hbefore : ∀ z ∈ before, Named.name z ≠ Named.name x) (hy : Named.name y = Named.name x) :
    place x (before ++ y :: after) = before ++ x :: after := by
  induction before with
  | nil => exact if_pos hy
  | cons z zs ih =>
    rw [List.forall_mem_cons] at hbefore
    rw [List.cons_append, place, if_neg hbefore.1, ih hbefore.2, List.cons_append]

/-- The first entry of a name is the one that is taken out. -/
theorem dropNamed_append_cons {name : String} {y : α} {before : List α} (after : List α)
    (hbefore : ∀ z ∈ before, Named.name z ≠ name) (hy : Named.name y = name) :
    dropNamed name (before ++ y :: after) = before ++ after := by
  induction before with
  | nil => exact if_pos hy
  | cons z zs ih =>
    rw [List.forall_mem_cons] at hbefore
    rw [List.cons_append, dropNamed, if_neg hbefore.1, ih hbefore.2, List.cons_append]

theorem dropNamed_of_fresh {name : String} {xs : List α} (h : name ∉ xs.map Named.name) :
    dropNamed name xs = xs := by
  induction xs with
  | nil => rfl
  | cons y ys ih =>
    rw [List.map_cons, List.mem_cons, not_or] at h
    rw [dropNamed, if_neg fun he => h.1 he.symm, ih h.2]

theorem dropNamed_sublist (name : String) (xs : List α) : (dropNamed name xs).Sublist xs := by
  induction xs with
  | nil => exact .slnil
  | cons y ys ih =>
    rw [dropNamed]
    split
    · exact List.sublist_cons_self y ys
    · exact ih.cons_cons y

theorem unique_empty : (empty : Registry α).Unique := List.nodup_nil

theorem Unique.insert {r : Registry α} (h : r.Unique) (x : α) : (r.insert x).Unique := by
  rw [Unique, names, Registry.insert, map_name_place]
  split
  · exact h
  · rename_i hfresh
    rw [← List.concat_eq_append]
    exact List.Nodup.concat hfresh h

theorem Unique.erase {r : Registry α} (h : r.Unique) (name : String) : (r.erase name).Unique :=
  ((dropNamed_sublist name r.items).map _).nodup h

theorem mem_insert {r : Registry α} {x y : α} (h : y ∈ (r.insert x).items) :
    y = x ∨ y ∈ r.items :=
  mem_place h

theorem mem_of_mem_erase {r : Registry α} {name : String} {y : α}
    (h : y ∈ (r.erase name).items) : y ∈ r.items :=
  (dropNamed_sublist name r.items).subset h

theorem mem_names_insert {r : Registry α} {x : α} {name : String} :
    name ∈ (r.insert x).names ↔ name = Named.name x ∨ name ∈ r.names := by
  rw [names, Registry.insert, map_name_place, names]
  split
  · rename_i hmem
    exact ⟨.inr, fun h => h.elim (fun he => he ▸ hmem) id⟩
  · rw [List.mem_append, List.mem_singleton, or_comm]

theorem mem_names_erase {r : Registry α} {other : String} (h : other ∈ r.names) (name : String) :
    other = name ∨ other ∈ (r.erase name).names := by
  obtain ⟨xs⟩ := r
  rw [names] at h
  rw [erase, names]
  induction xs with
  | nil => cases h
  | cons y ys ih =>
    rw [List.map_cons, List.mem_cons] at h
    rw [dropNamed]
    split
    · rename_i hy
      exact h.imp_left fun he => he.trans hy
    · rw [List.map_cons, List.mem_cons]
      rcases h with rfl | h
      · exact .inr (.inl rfl)
      · exact (ih h).imp_right .inr

theorem mem_of_get? {r : Registry α} {name : String} {x : α} (h : r.get? name = some x) :
    x ∈ r.items ∧ Named.name x = name :=
  ⟨List.mem_of_find?_eq_some h, by simpa using List.find?_some h⟩

/-- A lookup gives the first entry of the name. -/
theorem get?_eq_some_iff_append {r : Registry α} {name : String} {x : α} :
    r.get? name = some x ↔ Named.name x = name ∧
      ∃ before after, r.items = before ++ x :: after ∧ ∀ y ∈ before, Named.name y ≠ name := by
  rw [get?, List.find?_eq_some_iff_append]
  simp

/-- In a registry without repeated names, every entry is found under its name. -/
theorem Unique.get?_eq_some {r : Registry α} (h : r.Unique) {x : α} (hx : x ∈ r.items) :
    r.get? (Named.name x) = some x :=
  (find?_key_eq_some h).mpr ⟨hx, rfl⟩

theorem get?_eq_none {r : Registry α} {name : String} :
    r.get? name = none ↔ name ∉ r.names := by
  simp [Registry.get?, names]

theorem get?_insert (r : Registry α) (x : α) (name : String) :
    (r.insert x).get? name = if Named.name x = name then some x else r.get? name := by
  obtain ⟨xs⟩ := r
  rw [get?, Registry.insert, get?]
  induction xs with
  | nil => simp [place, List.find?_singleton]
  | cons y ys ih =>
    rw [place]
    by_cases hy : Named.name y = Named.name x
    · by_cases hx : Named.name x = name
      · simp [hy, hx]
      · simp [hy, hx]
    · rw [if_neg hy]
      by_cases hname : Named.name y = name
      · have hx : Named.name x ≠ name := fun he => hy (hname.trans he.symm)
        simp [hname, hx]
      · simp [hname, ih]

/-- A registry without repeated names is what its lookups give for its names in order. -/
theorem Unique.filterMap_get? {r : Registry α} (h : r.Unique) :
    r.names.filterMap r.get? = r.items := by
  have hitems : r.items.filterMap (r.get? ∘ Named.name) = r.items.filterMap some :=
    List.filterMap_congr fun x hx => h.get?_eq_some hx
  rw [names, List.filterMap_map, hitems, List.filterMap_some]

/-- Entries added to the end of a list are added last. -/
theorem ofList_append_singleton (xs : List α) (x : α) :
    ofList (xs ++ [x]) = (ofList xs).insert x := by
  rw [ofList, ofList, List.foldl_append]
  rfl

theorem unique_ofList (xs : List α) : (ofList xs).Unique := by
  induction xs using List.reverseRecOn with
  | nil => exact unique_empty
  | append_singleton xs x ih =>
    rw [ofList_append_singleton]
    exact ih.insert x

/-- The names of a list stand in the order in which they occur first. -/
theorem names_ofList (xs : List α) : (ofList xs).names = (xs.map Named.name).eraseDups := by
  induction xs using List.reverseRecOn with
  | nil => rfl
  | append_singleton xs x ih =>
    rw [ofList_append_singleton, names, Registry.insert, map_name_place, ← names, ih,
      List.map_append, List.eraseDups_append]
    by_cases hmem : Named.name x ∈ xs.map Named.name
    · rw [if_pos (List.mem_eraseDups.mpr hmem)]
      simp [List.removeAll, List.mem_map.mp hmem]
    · rw [if_neg (mt List.mem_eraseDups.mp hmem)]
      have hfresh : ([x].map Named.name).removeAll (xs.map Named.name) = [Named.name x] := by
        simpa [List.removeAll] using hmem
      rw [hfresh]
      rfl

/-- What is found under a name is the last of its definitions. -/
theorem get?_ofList (xs : List α) (name : String) :
    (ofList xs).get? name = xs.findRev? fun x => Named.name x == name := by
  rw [List.findRev?_eq_find?_reverse]
  induction xs using List.reverseRecOn with
  | nil => rfl
  | append_singleton xs x ih =>
    rw [ofList_append_singleton, get?_insert, ih, List.reverse_append, List.reverse_singleton,
      List.singleton_append]
    by_cases hx : Named.name x = name
    · rw [if_pos hx, List.find?_cons_of_pos (by simpa using hx)]
    · rw [if_neg hx, List.find?_cons_of_neg (by simpa using hx)]

theorem ofList_of_nodup {xs : List α} (h : (xs.map Named.name).Nodup) : ofList xs = ⟨xs⟩ := by
  induction xs using List.reverseRecOn with
  | nil => rfl
  | append_singleton xs x ih =>
    rw [List.map_append, List.nodup_append] at h
    rw [ofList_append_singleton, ih h.1, Registry.insert, place_of_fresh]
    exact fun hmem => h.2.2 _ hmem _ List.mem_cons_self rfl

/-- A list with repeated names merged: every name once, in the place where it occurs first, with
the last of its definitions. -/
def merged (xs : List α) : List α :=
  (xs.map Named.name).eraseDups.filterMap fun name => xs.findRev? fun x => Named.name x == name

theorem items_ofList (xs : List α) : (ofList xs).items = merged xs := by
  rw [← (unique_ofList xs).filterMap_get?, names_ofList, merged]
  exact List.filterMap_congr fun name _ => get?_ofList xs name

theorem merged_eq_self {xs : List α} : merged xs = xs ↔ (xs.map Named.name).Nodup := by
  rw [← items_ofList]
  constructor
  · intro h
    have hunique := unique_ofList xs
    rwa [Unique, names, h] at hunique
  · intro h
    rw [ofList_of_nodup h]

/-- Merging only leaves out. -/
theorem mem_of_mem_merged {xs : List α} {x : α} (h : x ∈ merged xs) : x ∈ xs := by
  obtain ⟨name, _, hx⟩ := List.mem_filterMap.mp h
  rw [List.findRev?_eq_find?_reverse] at hx
  exact List.mem_reverse.mp (List.mem_of_find?_eq_some hx)

/-- Images of entries are found under the same names. -/
theorem get?_map {β : Type} [Named β] (g : α → β) (hg : ∀ x, Named.name (g x) = Named.name x)
    (r : Registry α) (name : String) :
    (⟨r.items.map g⟩ : Registry β).get? name = (r.get? name).map g := by
  have hkey : ((fun y : β => Named.name y == name) ∘ g) = fun x => Named.name x == name := by
    funext x
    rw [Function.comp_apply, hg]
  rw [get?, get?, List.find?_map, hkey]

theorem map_place {β : Type} [Named β] (g : α → β) (hg : ∀ x, Named.name (g x) = Named.name x)
    (x : α) (xs : List α) : (place x xs).map g = place (g x) (xs.map g) := by
  induction xs with
  | nil => rfl
  | cons y ys ih =>
    rw [List.map_cons, place, place, hg, hg]
    split
    · rfl
    · rw [List.map_cons, ih]

end Milp.Registry
