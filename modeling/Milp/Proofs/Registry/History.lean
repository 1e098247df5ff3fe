import Milp.Proofs.Registry

/-! Histories of a registry. After upserts and removals in any order, a registry holds under a name
what was put there last, unless the name was removed since, and its names stand in the order in
which they came in. A replacement does not move its entry; a removed name comes in anew. -/
namespace Milp.Registry

inductive Step (α : Type) where
  | upsert (x : α)
  | remove (name : String)

variable {α : Type} [Named α]

def Step.name : Step α → String
  | .upsert x => Named.name x
  | .remove name => name

def perform (r : Registry α) : Step α → Option α × Registry α
  | .upsert x => r.upsert x
  | .remove name => r.remove name

def after (r : Registry α) (h : List (Step α)) : Registry α :=
  h.foldl (fun r s => (r.perform s).2) r

theorem after_append (r : Registry α) (h h' : List (Step α)) :
    r.after (h ++ h') = (r.after h).after h' :=
  List.foldl_append

/-- A registry that is collected from a list comes from upserts only. -/
theorem after_upserts (xs : List α) : empty.after (xs.map .upsert) = ofList xs := by
  rw [after, List.foldl_map]
  rfl

section Reading

/-! What a history says by itself. -/

variable {h : List (Step α)} {s a : Step α} {x : α} {name : String} {i j : Nat}

/-- A step was made, and every later one is of a kind. -/
def Since (P : Step α → Prop) (h : List (Step α)) (a : Step α) : Prop :=
  ∃ before after, h = before ++ a :: after ∧ ∀ s ∈ after, P s

/-- The last step about the name of an entry has put that entry in. -/
def Holds (h : List (Step α)) (x : α) : Prop :=
  Since (fun s => s.name ≠ Named.name x) h (.upsert x)

/-- An entry was put in, and its name has not been removed since. -/
def Lives (h : List (Step α)) (x : α) : Prop :=
  Since (· ≠ .remove (Named.name x)) h (.upsert x)

/-- A name came in with the step that follows the first `i`: that is an upsert of the name, no
removal of the name comes after it, and one has come after each upsert of the name before it. -/
def EntersAt (h : List (Step α)) (name : String) (i : Nat) : Prop :=
  ∃ before x after, h = before ++ .upsert x :: after ∧ before.length = i ∧ Named.name x = name ∧
    (∀ s ∈ after, s ≠ .remove name) ∧ ∀ y, Named.name y = name → ¬Lives before y

def Precedes (h : List (Step α)) (name other : String) : Prop :=
  ∃ i j, EntersAt h name i ∧ EntersAt h other j ∧ i < j

omit [Named α] in
theorem not_since_nil {P : Step α → Prop} : ¬Since P [] a := by
  rintro ⟨before, after, hsplit, _⟩
  simp at hsplit

omit [Named α] in
theorem since_append_singleton {P : Step α → Prop} :
    Since P (h ++ [s]) a ↔ s = a ∨ P s ∧ Since P h a := by
  constructor
  · rintro ⟨before, after, hsplit, hafter⟩
    rcases append_singleton_eq_append_cons.mp hsplit with ⟨rfl, rfl, rfl⟩ | ⟨rest, rfl, rfl⟩
    · exact .inl rfl
    · rw [List.forall_mem_append, List.forall_mem_singleton] at hafter
      exact .inr ⟨hafter.2, before, rest, rfl, hafter.1⟩
  · rintro (rfl | ⟨hs, before, after, rfl, hafter⟩)
    · exact ⟨h, [], rfl, nofun⟩
    · refine ⟨before, after ++ [s], by simp, ?_⟩
      rw [List.forall_mem_append, List.forall_mem_singleton]
      exact ⟨hafter, hs⟩

theorem holds_append_singleton :
    Holds (h ++ [s]) x ↔ s = .upsert x ∨ s.name ≠ Named.name x ∧ Holds h x :=
  since_append_singleton

theorem lives_append_singleton :
    Lives (h ++ [s]) x ↔ s = .upsert x ∨ s ≠ .remove (Named.name x) ∧ Lives h x :=
  since_append_singleton

theorem entersAt_append_singleton :
    EntersAt (h ++ [s]) name i ↔
      (s ≠ .remove name ∧ EntersAt h name i) ∨
        h.length = i ∧ (∃ x, s = .upsert x ∧ Named.name x = name) ∧
          ∀ y, Named.name y = name → ¬Lives h y := by
  constructor
  · rintro ⟨before, x, after, hsplit, hlength, hname, hafter, hfirst⟩
    rcases append_singleton_eq_append_cons.mp hsplit with ⟨rfl, rfl, rfl⟩ | ⟨rest, rfl, rfl⟩
    · exact .inr ⟨hlength, ⟨x, rfl, hname⟩, hfirst⟩
    · rw [List.forall_mem_append, List.forall_mem_singleton] at hafter
      exact .inl ⟨hafter.2, before, x, rest, rfl, hlength, hname, hafter.1, hfirst⟩
  · rintro (⟨hs, before, x, after, rfl, hlength, hname, hafter, hfirst⟩ |
      ⟨hlength, ⟨x, rfl, hname⟩, hfirst⟩)
    · refine ⟨before, x, after ++ [s], by simp, hlength, hname, ?_, hfirst⟩
      rw [List.forall_mem_append, List.forall_mem_singleton]
      exact ⟨hafter, hs⟩
    · exact ⟨h, x, [], rfl, hlength, hname, nofun, hfirst⟩

/-- A name that has come in stays until it is removed. -/
theorem EntersAt.lives (he : EntersAt h name i) : ∃ x, Named.name x = name ∧ Lives h x := by
  obtain ⟨before, x, after, rfl, _, rfl, hafter, _⟩ := he
  exact ⟨x, rfl, before, after, rfl, hafter⟩

theorem EntersAt.lt_length (he : EntersAt h name i) : i < h.length := by
  obtain ⟨before, x, after, rfl, rfl, _⟩ := he
  simp

/-- A name comes in once. -/
theorem EntersAt.unique (hi : EntersAt h name i) (hj : EntersAt h name j) : i = j := by
  induction h using List.reverseRecOn with
  | nil => exact absurd hi.lt_length (Nat.not_lt_zero _)
  | append_singleton h s ih =>
    rcases entersAt_append_singleton.mp hi with ⟨_, hi⟩ | ⟨hi, _, hfirst⟩ <;>
      rcases entersAt_append_singleton.mp hj with ⟨_, hj⟩ | ⟨hj, _, hfirst'⟩
    · exact ih hi hj
    · obtain ⟨x, hx, hlives⟩ := hi.lives
      exact absurd hlives (hfirst' x hx)
    · obtain ⟨x, hx, hlives⟩ := hj.lives
      exact absurd hlives (hfirst x hx)
    · exact hi.symm.trans hj

theorem existsUnique_entersAt : (∃! i, EntersAt h name i) ↔ ∃ i, EntersAt h name i := by
  refine ⟨ExistsUnique.exists, ?_⟩
  rintro ⟨i, hi⟩
  exact ⟨i, hi, fun _ hj => hj.unique hi⟩

/-- A name that was put in and not removed since has come in at some time. -/
theorem Lives.exists_entersAt (hx : Lives h x) : ∃ i, EntersAt h (Named.name x) i := by
  induction h using List.reverseRecOn generalizing x with
  | nil => exact absurd hx not_since_nil
  | append_singleton h s ih =>
    simp only [entersAt_append_singleton]
    rcases lives_append_singleton.mp hx with rfl | ⟨hs, hx⟩
    · by_cases hfirst : ∀ y, Named.name y = Named.name x → ¬Lives h y
      · exact ⟨h.length, .inr ⟨rfl, ⟨x, rfl, rfl⟩, hfirst⟩⟩
      · push Not at hfirst
        obtain ⟨y, hy, hlives⟩ := hfirst
        obtain ⟨i, hi⟩ := ih hlives
        exact ⟨i, .inl ⟨by simp, hy ▸ hi⟩⟩
    · obtain ⟨i, hi⟩ := ih hx
      exact ⟨i, .inl ⟨hs, hi⟩⟩

theorem Holds.lives (hx : Holds h x) : Lives h x := by
  obtain ⟨before, after, hsplit, hafter⟩ := hx
  refine ⟨before, after, hsplit, fun s hs hremove => hafter s hs ?_⟩
  rw [hremove, Step.name]

/-- Of the upserts of a name since its last removal, one is the last. -/
theorem Lives.exists_holds (hx : Lives h x) : ∃ y, Named.name y = Named.name x ∧ Holds h y := by
  induction h using List.reverseRecOn with
  | nil => exact absurd hx not_since_nil
  | append_singleton h s ih =>
    simp only [holds_append_singleton]
    rcases lives_append_singleton.mp hx with rfl | ⟨hs, hx⟩
    · exact ⟨x, rfl, .inl rfl⟩
    · obtain ⟨y, hy, hholds⟩ := ih hx
      cases s with
      | remove name =>
        have hne : name ≠ Named.name y := fun he => hs (by rw [he, hy])
        exact ⟨y, hy, .inr ⟨hne, hholds⟩⟩
      | upsert z =>
        by_cases hz : Named.name z = Named.name x
        · exact ⟨z, hz, .inl rfl⟩
        · exact ⟨y, hy, .inr ⟨fun he => hz (he.trans hy), hholds⟩⟩

/-- The names with an entry are those that have come in. -/
theorem exists_holds_iff_entersAt :
    (∃ x, Named.name x = name ∧ Holds h x) ↔ ∃ i, EntersAt h name i := by
  constructor
  · rintro ⟨x, rfl, hx⟩
    exact hx.lives.exists_entersAt
  · rintro ⟨i, hi⟩
    obtain ⟨x, rfl, hx⟩ := hi.lives
    exact hx.exists_holds

theorem Precedes.append_singleton {other : String} (hp : Precedes h name other)
    (hname : s ≠ .remove name) (hother : s ≠ .remove other) :
    Precedes (h ++ [s]) name other := by
  obtain ⟨i, j, hi, hj, hlt⟩ := hp
  exact ⟨i, j, entersAt_append_singleton.mpr (.inl ⟨hname, hi⟩),
    entersAt_append_singleton.mpr (.inl ⟨hother, hj⟩), hlt⟩

end Reading

section Effects

/-- What a step makes of a list of entries, and what it gives back. All entries that are not given
back stay where they are, and what comes in anew comes in at the end. -/
inductive Effect : Step α → List α → Option α → List α → Prop
  | replaced {x y : α} (before after : List α) : Named.name y = Named.name x →
      Effect (.upsert x) (before ++ y :: after) (some y) (before ++ x :: after)
  | appended {x : α} {items : List α} : Named.name x ∉ items.map Named.name →
      Effect (.upsert x) items none (items ++ [x])
  | taken {name : String} {y : α} (before after : List α) : Named.name y = name →
      Effect (.remove name) (before ++ y :: after) (some y) (before ++ after)
  | absent {name : String} {items : List α} : name ∉ items.map Named.name →
      Effect (.remove name) items none items

/-- What is given back is what the registry has held under the name of the step. -/
theorem effect_perform (r : Registry α) (s : Step α) :
    Effect s r.items (r.perform s).1 (r.perform s).2.items := by
  cases s with
  | upsert x =>
    change Effect _ r.items (r.get? (Named.name x)) (place x r.items)
    cases hget : r.get? (Named.name x) with
    | none =>
      have hfresh := get?_eq_none.mp hget
      rw [place_of_fresh hfresh]
      exact .appended hfresh
    | some y =>
      obtain ⟨hy, before, after, hitems, hbefore⟩ := get?_eq_some_iff_append.mp hget
      rw [hitems, place_append_cons after hbefore hy]
      exact .replaced before after hy
  | remove name =>
    change Effect _ r.items (r.get? name) (dropNamed name r.items)
    cases hget : r.get? name with
    | none =>
      have hfresh := get?_eq_none.mp hget
      rw [dropNamed_of_fresh hfresh]
      exact .absent hfresh
    | some y =>
      obtain ⟨hy, before, after, hitems, hbefore⟩ := get?_eq_some_iff_append.mp hget
      rw [hitems, dropNamed_append_cons after hbefore hy]
      exact .taken before after hy

variable {s : Step α} {items items' : List α} {old : Option α} {x : α}

theorem name_ne_of_fresh {name : String} (hfresh : name ∉ items.map Named.name) (hx : x ∈ items) :
    name ≠ Named.name x := fun he => hfresh (he ▸ List.mem_map_of_mem hx)

theorem nodup_names_middle {before after : List α} {y : α} :
    ((before ++ y :: after).map Named.name).Nodup ↔
      Named.name y ∉ (before ++ after).map Named.name ∧
        ((before ++ after).map Named.name).Nodup := by
  rw [List.map_append, List.map_cons, List.nodup_middle, List.nodup_cons, ← List.map_append]

theorem mem_of_other_name {before after : List α} {y : α}
    (hunique : ((before ++ y :: after).map Named.name).Nodup) :
    Named.name y ≠ Named.name x ∧ x ∈ before ++ y :: after ↔ x ∈ before ++ after := by
  rw [List.perm_middle.mem_iff, List.mem_cons]
  constructor
  · rintro ⟨hne, rfl | hx⟩
    · exact absurd rfl hne
    · exact hx
  · intro hx
    exact ⟨name_ne_of_fresh (nodup_names_middle.mp hunique).1 hx, .inr hx⟩

/-- The entries after a step: what it puts in, and what was there under other names. -/
theorem Effect.mem_iff (he : Effect s items old items') (hunique : (items.map Named.name).Nodup) :
    x ∈ items' ↔ s = .upsert x ∨ s.name ≠ Named.name x ∧ x ∈ items := by
  cases he with
  | @replaced x' y before after hy =>
    rw [Step.name, ← hy, mem_of_other_name hunique, List.perm_middle.mem_iff, List.mem_cons,
      Step.upsert.injEq, eq_comm]
  | @appended x' _ hfresh =>
    rw [List.mem_append, List.mem_singleton, Step.upsert.injEq, Step.name, or_comm, eq_comm,
      and_iff_right_of_imp fun hx => name_ne_of_fresh hfresh hx]
  | taken before after hy =>
    rw [Step.name, ← hy, mem_of_other_name hunique]
    simp
  | absent hfresh =>
    rw [Step.name, and_iff_right_of_imp fun hx => name_ne_of_fresh hfresh hx]
    simp

/-- The names after a step: some of those before, none of which it removes, or all of them and
a new one at the end. -/
theorem Effect.names (he : Effect s items old items') (hunique : (items.map Named.name).Nodup) :
    ((items'.map Named.name).Sublist (items.map Named.name) ∧
        ∀ name ∈ items'.map Named.name, s ≠ .remove name) ∨
      ∃ x, s = .upsert x ∧ Named.name x ∉ items.map Named.name ∧
        items'.map Named.name = items.map Named.name ++ [Named.name x] := by
  cases he with
  | @replaced x y before after hy =>
    have hnames :
        (before ++ x :: after).map Named.name = (before ++ y :: after).map Named.name := by
      rw [List.map_append, List.map_cons, ← hy, List.map_append, List.map_cons]
    exact .inl ⟨hnames ▸ .refl _, by simp⟩
  | @appended x _ hfresh =>
    exact .inr ⟨x, rfl, hfresh, by rw [List.map_append, List.map_singleton]⟩
  | @taken name y before after hy =>
    have hsublist : (before ++ after).Sublist (before ++ y :: after) :=
      (List.Sublist.refl before).append (List.sublist_cons_self y after)
    refine .inl ⟨hsublist.map _, fun other hother he => ?_⟩
    cases he
    exact (nodup_names_middle.mp hunique).1 (hy ▸ hother)
  | @absent name _ hfresh =>
    refine .inl ⟨.refl _, fun other hother he => ?_⟩
    cases he
    exact hfresh hother

end Effects

/-- A registry is what a history makes of an insertion-ordered map: no name occurs twice, lookups
and entries are those that the history holds, and names stand in the order in which they came in. -/
structure Reflects (r : Registry α) (h : List (Step α)) : Prop where
  unique : r.names.Nodup
  get? : ∀ name x, r.get? name = some x ↔ Named.name x = name ∧ Holds h x
  contains : ∀ name, r.contains name = true ↔ ∃ x, Named.name x = name ∧ Holds h x
  mem_items : ∀ x, x ∈ r.items ↔ Holds h x
  mem_names : ∀ name, name ∈ r.names ↔ ∃! i, EntersAt h name i
  ordered : r.names.Pairwise (Precedes h)

variable {r : Registry α} {h : List (Step α)}

/-- Names, entries and the order of the names say everything. -/
theorem reflects_of (unique : r.Unique) (mem_items : ∀ x, x ∈ r.items ↔ Holds h x)
    (ordered : r.names.Pairwise (Precedes h)) : r.Reflects h where
  unique := unique
  get? name x := by
    rw [Registry.get?, find?_key_eq_some unique, mem_items, and_comm]
  contains name := by
    simp only [Registry.contains, Option.isSome_iff_exists, Registry.get?,
      find?_key_eq_some unique, mem_items, and_comm]
  mem_items := mem_items
  mem_names name := by
    rw [existsUnique_entersAt, ← exists_holds_iff_entersAt, names, List.mem_map]
    simp only [mem_items, and_comm]
  ordered := ordered

theorem Unique.perform (hr : r.Unique) (s : Step α) : (r.perform s).2.Unique := by
  cases s with
  | upsert x => exact hr.insert x
  | remove name => exact hr.erase name

/-- A step keeps a registry in line with its history. -/
theorem Reflects.perform (hr : r.Reflects h) (s : Step α) :
    (r.perform s).2.Reflects (h ++ [s]) := by
  have heffect := effect_perform r s
  refine reflects_of (Unique.perform hr.unique s) (fun x => ?_) ?_
  · rw [heffect.mem_iff hr.unique, hr.mem_items, holds_append_singleton]
  · rcases heffect.names hr.unique with ⟨hsublist, hkept⟩ | ⟨x, rfl, hfresh, hnames⟩
    · refine (hr.ordered.sublist hsublist).imp_of_mem fun hm hn hp => ?_
      exact hp.append_singleton (hkept _ hm) (hkept _ hn)
    · -- Every name that is there has come in before this step, with which the new one comes in.
      have hfirst : ∀ y, Named.name y = Named.name x → ¬Lives h y := by
        intro y hy hlives
        obtain ⟨z, hz, hholds⟩ := hlives.exists_holds
        exact hfresh (List.mem_map.mpr ⟨z, (hr.mem_items z).mpr hholds, hz.trans hy⟩)
      have hnew : EntersAt (h ++ [.upsert x]) (Named.name x) h.length :=
        entersAt_append_singleton.mpr (.inr ⟨rfl, ⟨x, rfl, rfl⟩, hfirst⟩)
      rw [names, hnames, List.pairwise_append]
      refine ⟨hr.ordered.imp fun hp => hp.append_singleton (by simp) (by simp),
        List.pairwise_singleton _ _, fun name hname other hother => ?_⟩
      obtain ⟨i, hi, _⟩ := (hr.mem_names name).mp hname
      rw [List.mem_singleton.mp hother]
      exact ⟨i, h.length, entersAt_append_singleton.mpr (.inl ⟨by simp, hi⟩), hnew, hi.lt_length⟩

theorem reflects_empty : (empty : Registry α).Reflects [] :=
  reflects_of unique_empty (fun _ => iff_of_false List.not_mem_nil not_since_nil) .nil

theorem reflects_after (h : List (Step α)) : (empty.after h).Reflects h := by
  induction h using List.reverseRecOn with
  | nil => exact reflects_empty
  | append_singleton h s ih =>
    rw [after_append]
    exact ih.perform s

/-- After upserts and removals of any number and order, in a registry that was collected from any
list, the registry reflects its history, that of its collection included, and a further step does
to its entries what it should. -/
theorem after_refines (xs : List α) (h : List (Step α)) :
    ((ofList xs).after h).Reflects (xs.map .upsert ++ h) ∧
      ∀ s, Effect s ((ofList xs).after h).items (((ofList xs).after h).perform s).1
        (((ofList xs).after h).perform s).2.items := by
  constructor
  · rw [← after_upserts, ← after_append]
    exact reflects_after _
  · exact effect_perform _

example : ((ofList [(⟨"I", []⟩ : IndexSet), ⟨"J", []⟩]).after
    [.upsert ⟨"I", [.int 5]⟩, .remove "I", .upsert ⟨"I", []⟩]).names = ["J", "I"] := by decide

end Milp.Registry
