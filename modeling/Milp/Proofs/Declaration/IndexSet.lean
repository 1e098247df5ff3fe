import Milp.Declaration.IndexSet
import Milp.Proofs.Enumeration

/-! The check of an index set. A set with both kinds of elements is refused as such, whatever it
repeats; any other one is refused at its first repetition, if there is one. So a set that passes lists
distinct elements, and a product of such sets lists distinct tuples. -/
namespace Milp

section Repetitions

/-- Whether the element at a position also stands before it. -/
def RepeatsAt (es : List Element) (i : ℕ) : Prop := ∃ e ∈ es.take i, es[i]? = some e

theorem repeatsAt_iff {es : List Element} {i : ℕ} {e : Element} (h : es[i]? = some e) :
    RepeatsAt es i ↔ e ∈ es.take i := by
  simp [RepeatsAt, h]

/-- A search finds the element at the first position that repeats what was seen or what stands before
it. -/
theorem firstRepeat?_eq_some {seen es : List Element} {e : Element} :
    firstRepeat? seen es = some e ↔
      ∃ i, es[i]? = some e ∧ (e ∈ seen ∨ e ∈ es.take i) ∧
        ∀ j < i, ∀ d, es[j]? = some d → d ∉ seen ∧ d ∉ es.take j := by
  induction es generalizing seen with
  | nil => simp [firstRepeat?]
  | cons x es ih =>
    rw [firstRepeat?, ← Nat.or_exists_add_one]
    by_cases hx : x ∈ seen
    · -- The head is a repetition, and no later position comes before it.
      rw [if_pos hx]
      constructor
      · rintro ⟨⟩
        exact .inl ⟨rfl, .inl hx, nofun⟩
      · rintro (⟨he, -⟩ | ⟨i, -, -, hfirst⟩)
        · exact he
        · exact absurd hx (hfirst 0 (Nat.succ_pos i) x rfl).1
    · -- The head is no repetition, and counts as seen at the positions after it.
      rw [if_neg hx, ih, or_iff_right]
      · simp only [Nat.forall_lt_succ_left, List.getElem?_cons_zero, List.getElem?_cons_succ,
          List.take_zero, List.take_succ_cons, List.mem_cons, not_or, Option.some.injEq]
        refine exists_congr fun i => and_congr_right fun _ => and_congr (by tauto) ?_
        simp [hx, and_assoc, and_left_comm]
      · rintro ⟨⟨⟩, he | he, -⟩
        · exact hx he
        · cases he

/-- Where nothing was seen before, that is the first position that repeats anything. -/
theorem firstRepeat?_eq_some_iff_isLeast {es : List Element} {e : Element} :
    firstRepeat? [] es = some e ↔ ∃ i, IsLeast {i | RepeatsAt es i} i ∧ es[i]? = some e := by
  rw [firstRepeat?_eq_some]
  refine exists_congr fun i => ?_
  rw [and_comm (b := es[i]? = some e)]
  refine and_congr_right fun hi => and_congr ?_ ⟨fun hfirst j => ?_, fun hleast j hj d hd => ?_⟩
  · rw [or_iff_right List.not_mem_nil]
    exact (repeatsAt_iff hi).symm
  · rintro ⟨d, hmem, hd⟩
    by_contra hlt
    exact (hfirst j (Nat.lt_of_not_le hlt) d hd).2 hmem
  · refine ⟨List.not_mem_nil, fun hmem => ?_⟩
    exact Nat.not_le_of_lt hj (hleast ⟨d, hmem, hd⟩)

theorem firstRepeat?_eq_none {seen es : List Element} :
    firstRepeat? seen es = none ↔ es.Nodup ∧ ∀ e ∈ es, e ∉ seen := by
  induction es generalizing seen with
  | nil => simp [firstRepeat?]
  | cons e es ih =>
    rw [firstRepeat?]
    split
    · rename_i h
      simp [h]
    · rename_i h
      rw [ih, List.nodup_cons]
      constructor
      · rintro ⟨hnodup, hseen⟩
        refine ⟨⟨fun he => hseen e he List.mem_cons_self, hnodup⟩, ?_⟩
        intro d hd
        rcases List.mem_cons.mp hd with rfl | hd
        · exact h
        · exact fun hd' => hseen d hd (List.mem_cons_of_mem _ hd')
      · rintro ⟨⟨he, hnodup⟩, hseen⟩
        refine ⟨hnodup, fun d hd hd' => ?_⟩
        rcases List.mem_cons.mp hd' with rfl | hd'
        · exact he hd
        · exact hseen d (List.mem_cons_of_mem _ hd) hd'

end Repetitions

/-- A set passes its check exactly when its elements are of one kind and distinct. -/
theorem IndexSet.check_eq_ok {s : IndexSet} :
    s.check = .ok () ↔ s.isMixed = false ∧ s.elements.Nodup := by
  rw [check]
  cases hmixed : s.isMixed with
  | true => simp
  | false =>
    rw [if_neg (by simp)]
    cases hrepeat : firstRepeat? [] s.elements with
    | some e =>
      have h : ¬ s.elements.Nodup := fun hn => by
        rw [firstRepeat?_eq_none.mpr ⟨hn, by simp⟩] at hrepeat
        cases hrepeat
      simp [h]
    | none => simp [(firstRepeat?_eq_none.mp hrepeat).1]

namespace IndexSet

def OneKind (s : IndexSet) : Prop := ∀ d ∈ s.elements, ∀ e ∈ s.elements, d.isInt = e.isInt

/-- The failures of a set. Mixed kinds count before any repetition, and of the repetitions it is the
first in the list. -/
inductive Refused (s : IndexSet) : Error → Prop
  | mixed {d e : Element} : d ∈ s.elements → e ∈ s.elements → d.isInt = true → e.isInt = false →
      Refused s (.mixedSet s.name)
  | repeated {i : ℕ} {e : Element} : s.OneKind → IsLeast {i | RepeatsAt s.elements i} i →
      s.elements[i]? = some e → Refused s (.repeatedElement s.name e)

variable {s : IndexSet}

theorem isMixed_eq_true :
    s.isMixed = true ↔ ∃ d ∈ s.elements, ∃ e ∈ s.elements, d.isInt = true ∧ e.isInt = false := by
  simp only [isMixed, Bool.and_eq_true, List.any_eq_true, Bool.not_eq_true']
  constructor
  · rintro ⟨⟨d, hd, hint⟩, e, he, hstr⟩
    exact ⟨d, hd, e, he, hint, hstr⟩
  · rintro ⟨d, hd, e, he, hint, hstr⟩
    exact ⟨⟨d, hd, hint⟩, e, he, hstr⟩

theorem isMixed_eq_false : s.isMixed = false ↔ s.OneKind := by
  rw [← Bool.not_eq_true, isMixed_eq_true]
  constructor
  · intro h d hd e he
    cases hkind : d.isInt <;> cases hkind' : e.isInt
    · rfl
    · exact absurd ⟨e, he, d, hd, hkind', hkind⟩ h
    · exact absurd ⟨d, hd, e, he, hkind, hkind'⟩ h
    · rfl
  · rintro h ⟨d, hd, e, he, hint, hstr⟩
    have hsame := h d hd e he
    rw [hint, hstr] at hsame
    cases hsame

theorem check_eq_error {err : Error} : s.check = .error err ↔ s.Refused err := by
  rw [check]
  constructor
  · intro h
    split at h
    · rename_i hmixed
      obtain ⟨d, hd, e, he, hint, hstr⟩ := isMixed_eq_true.mp hmixed
      cases h
      exact .mixed hd he hint hstr
    · rename_i hmixed
      split at h
      · rename_i e hrepeat
        obtain ⟨i, hleast, hi⟩ := firstRepeat?_eq_some_iff_isLeast.mp hrepeat
        cases h
        exact .repeated (isMixed_eq_false.mp (Bool.eq_false_of_not_eq_true hmixed)) hleast hi
      · cases h
  · intro h
    cases h with
    | mixed hd he hint hstr => rw [if_pos (isMixed_eq_true.mpr ⟨_, hd, _, he, hint, hstr⟩)]
    | repeated hkind hleast hi =>
      rw [isMixed_eq_false.mpr hkind, if_neg Bool.false_ne_true,
        firstRepeat?_eq_some_iff_isLeast.mpr ⟨_, hleast, hi⟩]

example : check ⟨"K", [.int 1, .int 1, .str "a"]⟩ = .error (.mixedSet "K") := rfl

/-- The check of a set is exact: it passes when the elements are of one kind and distinct, and
otherwise names mixed kinds, or else the element at the first position that repeats one before it. So
no number of steps through the product of sets that pass gives a tuple twice. -/
theorem check_exact (s : IndexSet) :
    (s.check = .ok () ↔ s.OneKind ∧ s.elements.Nodup) ∧
    (∀ err, s.check = .error err ↔ s.Refused err) ∧
    ∀ sets : List IndexSet, (∀ t ∈ sets, t.check = .ok ()) →
      (tuples (sets.map elements)).Nodup ∧
      ∀ n, ((Odometer.start (sets.map elements)).take n).Nodup := by
  refine ⟨?_, fun err => check_eq_error, fun sets hsets => ?_⟩
  · rw [check_eq_ok, isMixed_eq_false]
  · have hnodup : (tuples (sets.map elements)).Nodup := by
      refine nodup_tuples (List.forall_mem_map.mpr fun t ht => ?_)
      exact (check_eq_ok.mp (hsets t ht)).2
    refine ⟨hnodup, fun n => ?_⟩
    rw [Odometer.take_start_eq_take]
    exact hnodup.sublist (List.take_sublist n _)

def legs : List IndexSet :=
  [⟨"day", [.int 1, .int 2]⟩, ⟨"stop", [.str "north", .str "south", .str "east"]⟩]

def detour : IndexSet := ⟨"detour", [.str "north", .str "south", .str "south", .str "north"]⟩

theorem check_exact_legs :
    (∀ t ∈ legs, t.check = .ok ()) ∧ (tuples (legs.map elements)).Nodup ∧
    ((Odometer.start (legs.map elements)).take 9).Nodup ∧
    detour.check = .error (.repeatedElement "detour" (.str "south")) ∧
    detour.Refused (.repeatedElement "detour" (.str "south")) := by
  obtain ⟨-, hrefused, hproduct⟩ := check_exact detour
  have hlegs : ∀ t ∈ legs, t.check = .ok () :=
    List.forall_mem_cons.mpr ⟨rfl, List.forall_mem_singleton.mpr rfl⟩
  have hdetour : detour.check = .error (.repeatedElement "detour" (.str "south")) := rfl
  obtain ⟨hnodup, htake⟩ := hproduct legs hlegs
  exact ⟨hlegs, hnodup, htake 9, hdetour, (hrefused _).mp hdetour⟩

end IndexSet

end Milp
