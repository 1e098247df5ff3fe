import Milp.Document.Record
import Milp.Proofs.Json.Tree

/-! Records. Fields may be shown in any order: each comes to stand in the slot of its name, so a
record of written fields is read from the values in its slots. Conversely an accepted record is
in one piece, and what stands in its slots are parts of it. -/
namespace Milp.Document

open Json (Arrangement)

variable {α β : Type}

/-- Whether a reader makes a value of a JSON value, wherever this comes from and however it is
shown. -/
def Reads (read : Source → Json → Except Fault α) (v : Json) (a : α) : Prop :=
  ∀ f, Arrangement f → ∀ source, read source (f v) = .ok a

/-- Whether a reader makes a value of an object with given fields in any order. -/
def ReadsFields (read : Source → Json → Except Fault α) (written : List (String × Json)) (a : α) :
    Prop :=
  ∀ f, Arrangement f → ∀ source shown, shown.Perm (written.map fun x => (x.1, f x.2)) →
    read source (.object shown) = .ok a

theorem ReadsFields.reads {read : Source → Json → Except Fault α} {written : List (String × Json)}
    {a : α} (h : ReadsFields read written a) (hnames : (written.map Prod.fst).Nodup) :
    Reads read (.object written) a := by
  intro f hf source
  obtain ⟨shown, hshown, hperm⟩ := hf.object written hnames
  rw [hshown]
  exact h f hf source shown hperm

namespace Fields

/-- What sorting fields into free slots of their own does. -/
theorem ofObject_of_free (source : Source) {names : List (List String)}
    {fields : List (String × Json)} {slots : List (Option (Nat × Json))} (place : Nat)
    (hfree : ∀ x ∈ fields, ∃ i, slotOf names x.1 = some i ∧ slots[i]? = some none)
    (hdistinct : (fields.map fun x => slotOf names x.1).Nodup) :
    (ofObject source names true place slots fields).stray = none ∧
      (∀ x ∈ fields, ∀ i, slotOf names x.1 = some i →
        ∃ p, (ofObject source names true place slots fields).slots[i]? = some (some (p, x.2))) ∧
      ∀ i, (∀ x ∈ fields, slotOf names x.1 ≠ some i) →
        (ofObject source names true place slots fields).slots[i]? = slots[i]? := by
  induction fields generalizing slots place with
  | nil => exact ⟨rfl, nofun, fun _ _ => rfl⟩
  | cons field fields ih =>
    obtain ⟨name, v⟩ := field
    rw [List.map_cons, List.nodup_cons] at hdistinct
    rw [List.forall_mem_cons] at hfree
    obtain ⟨⟨i, hi, hslot⟩, hrest⟩ := hfree
    have hlt : i < slots.length := (List.getElem?_eq_some_iff.mp hslot).1
    have hother : ∀ x ∈ fields, slotOf names x.1 ≠ some i := by
      intro x hx hsame
      refine hdistinct.1 (List.mem_map.mpr ⟨x, hx, ?_⟩)
      exact hsame.trans hi.symm
    have hfree' : ∀ x ∈ fields, ∃ k, slotOf names x.1 = some k ∧
        (slots.set i (some (place, v)))[k]? = some none := by
      intro x hx
      obtain ⟨k, hk, hnone⟩ := hrest x hx
      have hne : i ≠ k := by
        rintro rfl
        exact hother x hx hk
      exact ⟨k, hk, by rw [List.getElem?_set_ne hne, hnone]⟩
    obtain ⟨hstray, hfilled, hkept⟩ := ih (place + 1) hfree' hdistinct.2
    have hstep : ofObject source names true place slots ((name, v) :: fields) =
        ofObject source names true (place + 1) (slots.set i (some (place, v))) fields := by
      simp only at hi
      simp only [ofObject, hi, hslot]
    rw [hstep]
    refine ⟨hstray, fun x hx k hk => ?_, fun k hk => ?_⟩
    · rcases List.mem_cons.mp hx with rfl | hx
      · obtain rfl : i = k := Option.some.inj (hi.symm.trans hk)
        exact ⟨place, by rw [hkept i hother, List.getElem?_set_self hlt]⟩
      · exact hfilled x hx k hk
    · rw [List.forall_mem_cons] at hk
      have hne : i ≠ k := by
        rintro rfl
        exact hk.1 hi
      rw [hkept k hk.2, List.getElem?_set_ne hne]

def Holds (fs : Fields) (f : Json → Json) (i : Nat) (v : Json) : Prop :=
  ∃ place, fs.slots[i]? = some (some (place, f v))

variable {fs : Fields} {f : Json → Json} {i : Nat} {v : Json} {a : α}
  {read : Source → Json → Except Fault α}

theorem required_of_reads (hf : Arrangement f) (h : fs.Holds f i v) (hread : Reads read v a) :
    fs.required i read = .ok a := by
  obtain ⟨place, hslot⟩ := h
  rw [required, hslot]
  simp only [hread f hf fs.source]
  rfl

theorem optional_of_reads (hf : Arrangement f) (h : fs.Holds f i v) (default : α)
    (hread : Reads read v a) : fs.optional i default read = .ok a := by
  obtain ⟨place, hslot⟩ := h
  rw [optional, hslot]
  simp only [hread f hf fs.source]
  rfl

end Fields

namespace Fields

variable {names : List (List String)} {written : List (String × Json)} {f : Json → Json}

theorem slotOf_written
    (hslots : written.map (fun x => slotOf names x.1) = (List.range names.length).map some)
    {i : Nat} {x : String × Json} (hx : written[i]? = some x) : slotOf names x.1 = some i := by
  have hi := congrArg (fun slots => slots[i]?) hslots
  simp only [List.getElem?_map, hx, Option.map_some] at hi
  obtain ⟨k, hk, hsame⟩ := Option.map_eq_some_iff.mp hi.symm
  obtain ⟨hlt, hki⟩ := List.getElem?_eq_some_iff.mp hk
  rw [List.getElem_range] at hki
  rw [← hsame, hki]

/-- Fields that are named as the declared ones fill all slots, in whatever order they are shown. -/
theorem ofObject_shown (source : Source) {shown : List (String × Json)}
    (hslots : written.map (fun x => slotOf names x.1) = (List.range names.length).map some)
    (hperm : shown.Perm (written.map fun x => (x.1, f x.2))) :
    (ofObject source names true 0 (names.map fun _ => none) shown).stray = none ∧
      ∀ i v, (written.map Prod.snd)[i]? = some v →
        (ofObject source names true 0 (names.map fun _ => none) shown).Holds f i v := by
  have hshown : (shown.map fun x => slotOf names x.1).Perm
      ((List.range names.length).map some) := by
    rw [← hslots]
    have hmap := hperm.map fun x => slotOf names x.1
    rwa [List.map_map] at hmap
  have hfree : ∀ x ∈ shown, ∃ i, slotOf names x.1 = some i ∧
      (names.map fun _ => (none : Option (Nat × Json)))[i]? = some none := by
    intro x hx
    have hmem := hshown.mem_iff.mp (List.mem_map_of_mem hx)
    obtain ⟨i, hi, hslot⟩ := List.mem_map.mp hmem
    refine ⟨i, hslot.symm, ?_⟩
    rw [List.getElem?_map, List.getElem?_eq_getElem (List.mem_range.mp hi)]
    rfl
  have hdistinct : (shown.map fun x => slotOf names x.1).Nodup :=
    hshown.nodup_iff.mpr (List.nodup_range.map (Option.some_injective _))
  obtain ⟨hstray, hfilled, _⟩ := ofObject_of_free source 0 hfree hdistinct
  refine ⟨hstray, fun i v hv => ?_⟩
  rw [List.getElem?_map] at hv
  obtain ⟨x, hx, rfl⟩ := Option.map_eq_some_iff.mp hv
  have hslot : slotOf names x.1 = some i := slotOf_written hslots hx
  refine hfilled (x.1, f x.2) ?_ i hslot
  exact hperm.mem_iff.mpr (List.mem_map_of_mem (List.mem_of_getElem? hx))

end Fields

/-- A record is read from its fields in any order when they are named as the declared ones, and its
value is made from slots that hold what was written. -/
theorem readsFields_record {names : List (List String)} {make : Fields → Placed α}
    {written : List (String × Json)} {a : α}
    (hslots : written.map (fun x => Fields.slotOf names x.1) =
      (List.range names.length).map some)
    (hmake : ∀ f, Arrangement f → ∀ fs : Fields,
      (∀ i v, (written.map Prod.snd)[i]? = some v → fs.Holds f i v) → make fs = .ok a) :
    ReadsFields (readRecord names make) written a := by
  intro f hf source shown hperm
  obtain ⟨hstray, hholds⟩ := Fields.ofObject_shown source hslots hperm
  have hvalue := hmake f hf _ hholds
  rw [readRecord, Fields.ofJson]
  simp only [Fields.finish, hvalue, hstray]

/-- A record of one field. -/
theorem readsFields_single {name : String} {make : α → β} {v : Json} {a : α}
    {read : Source → Json → Except Fault α} (hslot : Fields.slotOf [[name]] name = some 0)
    (h : Reads read v a) :
    ReadsFields (readRecord [[name]] fun fs => make <$> fs.required 0 read) [(name, v)]
      (make a) := by
  refine readsFields_record (congrArg (fun slot => [slot]) hslot) fun f hf fs hslots => ?_
  rw [Fields.required_of_reads hf (hslots 0 v rfl) h]
  rfl

/-! ### Accepted records -/

namespace Placed

theorem map_eq_ok {g : α → β} {x : Placed α} {b : β} (h : g <$> x = .ok b) :
    ∃ a, x = .ok a ∧ g a = b := by
  cases x with
  | ok a => exact ⟨a, rfl, Placed.ok.inj h⟩
  | fault place fault => cases h

theorem seq_eq_ok {g : Placed (α → β)} {x : Placed α} {b : β} (h : g <*> x = .ok b) :
    ∃ k a, g = .ok k ∧ x = .ok a ∧ k a = b := by
  cases g with
  | ok k =>
    cases x with
    | ok a => exact ⟨k, a, rfl, rfl, Placed.ok.inj h⟩
    | fault place fault => cases h
  | fault place fault =>
    cases x with
    | ok a => cases h
    | fault place' fault' =>
      have hfault : (if place' < place then Placed.fault place' fault' else .fault place fault) =
          .ok b := h
      split at hfault <;> cases hfault

theorem ofExcept_eq_ok {place : Nat} {r : Except Fault α} {a : α}
    (h : ofExcept place r = .ok a) : r = .ok a := by
  cases r with
  | ok b => exact congrArg Except.ok (Placed.ok.inj h)
  | error fault => cases h

end Placed

namespace Fields

def From (fs : Fields) (j : Json) : Prop :=
  ∀ (i place : Nat) (v : Json), fs.slots[i]? = some (some (place, v)) → v ∈ j.children

variable {fs : Fields} {i : Nat} {j : Json} {a : α} {read : Source → Json → Except Fault α}

theorem required_eq_ok (hfs : fs.From j) (h : fs.required i read = .ok a) :
    ∃ v ∈ j.children, read fs.source v = .ok a := by
  rw [required] at h
  split at h
  · rename_i place v hslot
    exact ⟨v, hfs i place v hslot, Placed.ofExcept_eq_ok h⟩
  · cases h

theorem optional_eq_ok {default : α} (hfs : fs.From j) (h : fs.optional i default read = .ok a) :
    a = default ∨ ∃ v ∈ j.children, read fs.source v = .ok a := by
  rw [optional] at h
  split at h
  · rename_i place v hslot
    exact .inr ⟨v, hfs i place v hslot, Placed.ofExcept_eq_ok h⟩
  · exact .inl (Placed.ok.inj h).symm

theorem from_ofObject (source : Source) (names : List (List String)) (closed : Bool)
    (place : Nat) {slots : List (Option (Nat × Json))} {fields : List (String × Json)}
    (hslots : ∀ (i p : Nat) (v : Json), slots[i]? = some (some (p, v)) → v ∈ j.children)
    (hfields : ∀ x ∈ fields, x.2 ∈ j.children) :
    (ofObject source names closed place slots fields).From j := by
  induction fields generalizing place slots with
  | nil => exact hslots
  | cons field fields ih =>
    obtain ⟨name, value⟩ := field
    rw [List.forall_mem_cons] at hfields
    rw [ofObject]
    split
    · exact hslots
    · rename_i k hk
      split
      · refine ih _ ?_ hfields.2
        intro i p v hi
        rw [List.getElem?_set] at hi
        split at hi
        · split at hi
          · obtain ⟨_, rfl⟩ := Prod.mk.inj (Option.some.inj (Option.some.inj hi))
            exact hfields.1
          · cases hi
        · exact hslots i p v hi
      · exact hslots

/-- An unclosed object is at fault. -/
theorem closed_of_ofObject {source : Source} {names : List (List String)} {closed : Bool}
    {place : Nat} {slots : List (Option (Nat × Json))} {fields : List (String × Json)}
    (h : (ofObject source names closed place slots fields).stray = none) : closed = true := by
  induction fields generalizing place slots with
  | nil =>
    cases closed with
    | true => rfl
    | false => cases h
  | cons field fields ih =>
    rw [ofObject] at h
    split at h
    · cases h
    · split at h
      · exact ih h
      · cases h

theorem from_ofArray (source : Source) (count : Nat) (closed : Bool) (items : List Json) :
    (ofArray source count closed items).From (.array items closed) := by
  intro i place v hi
  have hslot : ((List.range count).map fun i => items[i]?.map fun j => (i, j))[i]? =
      some (some (place, v)) := hi
  rw [List.getElem?_map] at hslot
  obtain ⟨k, _, hk⟩ := Option.map_eq_some_iff.mp hslot
  obtain ⟨w, hw, hpair⟩ := Option.map_eq_some_iff.mp hk
  obtain ⟨_, rfl⟩ := Prod.mk.inj hpair
  exact List.mem_of_getElem? hw

theorem closed_of_ofArray {source : Source} {count : Nat} {closed : Bool} {items : List Json}
    (h : (ofArray source count closed items).stray = none) : closed = true := by
  cases closed with
  | true => rfl
  | false =>
    simp only [ofArray] at h
    split at h <;> cases h

theorem finish_eq_ok {r : Placed α} (h : fs.finish r = .ok a) :
    r = .ok a ∧ fs.stray = none := by
  simp only [finish] at h
  split at h
  · rename_i b hstray
    exact ⟨congrArg Placed.ok (Except.ok.inj h), hstray⟩
  · cases h
  · cases h
  · cases h

end Fields

/-- An accepted record is closed, and it is made from slots that hold parts of it. -/
theorem readRecord_eq_ok {names : List (List String)} {make : Fields → Placed α}
    {source : Source} {j : Json} {a : α} (h : readRecord names make source j = .ok a) :
    j.isClosed = true ∧ 0 < j.depth ∧ ∃ fs : Fields, fs.From j ∧ make fs = .ok a := by
  rw [readRecord] at h
  cases j with
  | array items closed =>
    obtain ⟨hvalue, hstray⟩ := Fields.finish_eq_ok h
    have hclosed : closed = true := Fields.closed_of_ofArray hstray
    exact ⟨hclosed, Nat.succ_pos _, _, Fields.from_ofArray source _ closed items, hvalue⟩
  | object fields closed =>
    obtain ⟨hvalue, hstray⟩ := Fields.finish_eq_ok h
    have hclosed : closed = true := Fields.closed_of_ofObject hstray
    refine ⟨hclosed, Nat.succ_pos _, _, Fields.from_ofObject source names closed 0 ?_ ?_, hvalue⟩
    · intro i place v hi
      rw [List.getElem?_map] at hi
      obtain ⟨_, _, hnone⟩ := Option.map_eq_some_iff.mp hi
      cases hnone
    · exact fun x hx => List.mem_map_of_mem hx
  | _ => cases h

end Milp.Document
