import Milp.Proofs.Scope

/-! Snapshots of scopes. A snapshot is built from the outermost layer inwards by rebinding names
where they stand; it lists every visible name once, in the order of first bindings, with the value that
a lookup from the innermost layer outwards gives. That value is the last binding of the name in the
innermost layer that binds it. -/
namespace Milp

namespace Bindings

theorem get?_cons (b : String × Element) (bs : Bindings) (name : String) :
    get? (b :: bs) name = if b.1 = name then some b.2 else get? bs name := by
  by_cases h : b.1 = name
  · rw [get?, List.find?_cons_of_pos (by simpa using h), if_pos h, Option.map_some]
  · rw [get?, List.find?_cons_of_neg (by simpa using h), if_neg h, get?]

/-- A name has a value exactly where it is listed. -/
theorem isSome_get? {bs : Bindings} {name : String} :
    (bs.get? name).isSome = true ↔ name ∈ bs.map Prod.fst := by
  simp [get?]

theorem get?_set (bs : Bindings) (name : String) (value : Element) (other : String) :
    (bs.set name value).get? other = if name = other then some value else bs.get? other := by
  induction bs with
  | nil => rw [set, get?_cons]
  | cons b bs ih =>
    rw [set]
    by_cases hb : b.1 = name
    · rw [if_pos hb, get?_cons, get?_cons, hb]
      split <;> rfl
    · rw [if_neg hb, get?_cons, get?_cons, ih]
      by_cases hother : b.1 = other
      · rw [if_pos hother, if_pos hother, if_neg fun h => hb (hother.trans h.symm)]
      · rw [if_neg hother, if_neg hother]

/-- A bound name keeps its place, and another one goes to the end. -/
theorem names_set (bs : Bindings) (name : String) (value : Element) :
    (bs.set name value).map Prod.fst =
      if name ∈ bs.map Prod.fst then bs.map Prod.fst else bs.map Prod.fst ++ [name] := by
  induction bs with
  | nil => rfl
  | cons b bs ih =>
    rw [set]
    by_cases hb : b.1 = name
    · simp [hb]
    · rw [if_neg hb, List.map_cons, ih]
      by_cases hmem : name ∈ bs.map Prod.fst
      · rw [if_pos hmem, List.map_cons, if_pos (List.mem_cons_of_mem _ hmem)]
      · have hfresh : name ∉ b.1 :: bs.map Prod.fst :=
          List.not_mem_cons_of_ne_of_not_mem (Ne.symm hb) hmem
        rw [if_neg hmem, List.map_cons, if_neg hfresh, List.cons_append]

theorem nodup_names_set {bs : Bindings} (h : (bs.map Prod.fst).Nodup) (name : String)
    (value : Element) : ((bs.set name value).map Prod.fst).Nodup := by
  rw [names_set]
  split
  · exact h
  · rename_i hfresh
    rw [← List.concat_eq_append]
    exact List.Nodup.concat hfresh h

end Bindings

namespace Scope

/-- Rebinding the bindings of a layer one by one gives the last one of each name, and leaves other
names alone. -/
private theorem get?_foldl_set (layer bs : Bindings) (name : String) :
    (layer.foldl (fun bs b => bs.set b.1 b.2) bs).get? name =
      ((layer.reverse.find? fun b => b.1 == name).map Prod.snd).or (bs.get? name) := by
  induction layer generalizing bs with
  | nil => rfl
  | cons b layer ih =>
    rw [List.foldl_cons, ih, Bindings.get?_set, List.reverse_cons, List.find?_append, Option.map_or,
      Option.or_assoc]
    congr 1
    by_cases hb : b.1 = name
    · simp [hb]
    · simp [hb]

/-- A snapshot gives every name the value that it has in the scope. -/
theorem get?_snapshot (s : Scope) (name : String) : s.snapshot.get? name = s.get? name := by
  induction s with
  | nil => rfl
  | cons layer outer ih =>
    rw [snapshot, get?_foldl_set, ih]
    exact (get?_child outer layer name).symm

private theorem nodup_names_foldl_set (layer : Bindings) {bs : Bindings}
    (h : (bs.map Prod.fst).Nodup) :
    ((layer.foldl (fun bs b => bs.set b.1 b.2) bs).map Prod.fst).Nodup := by
  induction layer generalizing bs with
  | nil => exact h
  | cons b layer ih => exact ih (Bindings.nodup_names_set h b.1 b.2)

/-- A snapshot lists no name twice. -/
theorem nodup_names_snapshot (s : Scope) : (s.snapshot.map Prod.fst).Nodup := by
  induction s with
  | nil => exact List.nodup_nil
  | cons layer outer ih => exact nodup_names_foldl_set layer ih

theorem mem_names_snapshot {s : Scope} {name : String} :
    name ∈ s.snapshot.map Prod.fst ↔ (s.get? name).isSome = true := by
  rw [← Bindings.isSome_get?, get?_snapshot]

/-- Whether a name has a value by the last of its bindings in the innermost layer that binds it. -/
inductive Sees (name : String) (value : Element) : Scope → Prop
  | inLayer {before after : Bindings} {outer : Scope} : name ∉ after.map Prod.fst →
      Sees name value ((before ++ (name, value) :: after) :: outer)
  | outside {layer : Bindings} {outer : Scope} : name ∉ layer.map Prod.fst →
      Sees name value outer → Sees name value (layer :: outer)

private theorem notMem_names {bs : Bindings} {name : String} :
    name ∉ bs.map Prod.fst ↔ ∀ b ∈ bs, ¬(b.1 == name) = true := by
  rw [← List.forall_mem_ne', List.forall_mem_map]
  simp only [beq_iff_eq]

private theorem find?_reverse_eq_none {layer : Bindings} {name : String} :
    (layer.reverse.find? fun b => b.1 == name).map Prod.snd = none ↔
      name ∉ layer.map Prod.fst := by
  simp only [Option.map_eq_none_iff, List.find?_eq_none, List.mem_reverse, notMem_names]

private theorem find?_reverse_eq_some {layer : Bindings} {name : String} {value : Element} :
    (layer.reverse.find? fun b => b.1 == name).map Prod.snd = some value ↔
      ∃ before after, layer = before ++ (name, value) :: after ∧ name ∉ after.map Prod.fst := by
  simp only [Option.map_eq_some_iff, List.find?_eq_some_iff_append, List.reverse_eq_iff,
    notMem_names, Bool.not_eq_true']
  constructor
  · rintro ⟨⟨_, _⟩, ⟨hname, after, before, hlayer, hafter⟩, rfl⟩
    cases beq_iff_eq.mp hname
    exact ⟨before.reverse, after.reverse, by simp [hlayer], by simpa using hafter⟩
  · rintro ⟨before, after, rfl, hafter⟩
    exact ⟨(name, value), ⟨beq_self_eq_true name, after.reverse, before.reverse, by simp,
      by simpa using hafter⟩, rfl⟩

/-- A lookup gives the value that a name has in the scope. -/
theorem get?_eq_some {s : Scope} {name : String} {value : Element} :
    s.get? name = some value ↔ s.Sees name value := by
  induction s with
  | nil => exact iff_of_false nofun nofun
  | cons layer outer ih =>
    rw [← child, get?_child, Option.or_eq_some_iff, find?_reverse_eq_some, find?_reverse_eq_none, ih]
    constructor
    · rintro (⟨before, after, rfl, hafter⟩ | ⟨hlayer, houter⟩)
      · exact .inLayer hafter
      · exact .outside hlayer houter
    · rintro (hafter | ⟨hlayer, houter⟩)
      · exact .inl ⟨_, _, rfl, hafter⟩
      · exact .inr ⟨hlayer, houter⟩

/-- The names of all bindings, from the outermost layer inwards and with repetitions. -/
def boundNames (s : Scope) : List String := s.reverse.flatten.map Prod.fst

theorem boundNames_cons (layer : Bindings) (outer : Scope) :
    boundNames (layer :: outer) = boundNames outer ++ layer.map Prod.fst := by
  simp [boundNames]

private theorem eraseDups_concat (names : List String) (name : String) :
    (names ++ [name]).eraseDups =
      if name ∈ names.eraseDups then names.eraseDups else names.eraseDups ++ [name] := by
  rw [List.eraseDups_append]
  by_cases h : name ∈ names <;> simp [List.removeAll, List.eraseDups_cons, h]

private theorem names_foldl_set (layer : Bindings) {bs : Bindings} {names : List String}
    (h : bs.map Prod.fst = names.eraseDups) :
    (layer.foldl (fun bs b => bs.set b.1 b.2) bs).map Prod.fst =
      (names ++ layer.map Prod.fst).eraseDups := by
  induction layer generalizing bs names with
  | nil => simpa using h
  | cons b layer ih =>
    have hset : (bs.set b.1 b.2).map Prod.fst = (names ++ [b.1]).eraseDups := by
      rw [Bindings.names_set, h, eraseDups_concat]
    rw [List.foldl_cons, ih hset, List.append_assoc, List.map_cons, List.singleton_append]

/-- Names stand in the order of their first bindings from the outside. -/
theorem names_snapshot (s : Scope) : s.snapshot.map Prod.fst = s.boundNames.eraseDups := by
  induction s with
  | nil => rfl
  | cons layer outer ih => rw [snapshot, names_foldl_set layer ih, boundNames_cons]

theorem isEmpty_eq_true {s : Scope} : s.isEmpty = true ↔ s.boundNames = [] := by
  induction s with
  | nil => exact iff_of_true rfl rfl
  | cons layer outer ih =>
    rw [isEmpty, Bool.and_eq_true, ih, boundNames_cons, List.append_eq_nil_iff, List.map_eq_nil_iff,
      List.isEmpty_iff, and_comm]

theorem isEmpty_snapshot (s : Scope) : s.snapshot.isEmpty = s.isEmpty := by
  rw [Bool.eq_iff_iff, isEmpty_eq_true, List.isEmpty_iff, ← List.map_eq_nil_iff (f := Prod.fst),
    names_snapshot]
  simp only [List.eq_nil_iff_forall_not_mem, List.mem_eraseDups]

theorem foldl_child (s : Scope) (layers : List Bindings) :
    layers.foldl child s = layers.reverse ++ s := by
  induction layers generalizing s with
  | nil => rfl
  | cons layer layers ih => rw [List.foldl_cons, ih, child, List.reverse_cons, List.append_assoc,
      List.singleton_append]

/-- A lookup and a snapshot agree on every name, on the last of its bindings in the innermost layer that
binds it. The snapshot lists each visible name once, in the order of first bindings from the outermost
layer inwards, and nothing where no layer binds anything. A scope stays as it is below all layers that
are put on it. -/
theorem snapshot_exact (s : Scope) :
    (∀ name, s.get? name = s.snapshot.get? name) ∧
    (∀ name value, s.get? name = some value ↔ s.Sees name value) ∧
    (s.snapshot.map Prod.fst).Nodup ∧
    (∀ name, name ∈ s.snapshot.map Prod.fst ↔ (s.get? name).isSome = true) ∧
    s.snapshot.map Prod.fst = s.boundNames.eraseDups ∧
    s.snapshot.isEmpty = s.isEmpty ∧
    ∀ layers : List Bindings, (layers.foldl child s).drop layers.length = s := by
  refine ⟨fun name => (get?_snapshot s name).symm, fun name value => get?_eq_some,
    nodup_names_snapshot s, fun name => mem_names_snapshot, names_snapshot s, isEmpty_snapshot s,
    fun layers => ?_⟩
  rw [foldl_child]
  exact List.drop_left' List.length_reverse

example : snapshot [[("t", .int 3)], [("t", .int 2), ("p", .str "A")]] =
    [("t", .int 3), ("p", .str "A")] := by decide

end Scope

end Milp
