import Milp.Odometer
import Mathlib

/-! Products of axes and the odometer that runs through them. `tuples` holds every combination of
entries exactly once when the axes repeat nothing, and the order of the axes decides nothing but the
order of tuples and components. Running a step over an odometer is folding it over that list, up to
the first failure, and what the odometer gives until its end is that list. -/
namespace Milp

variable {α : Type}

/-- The tuples of a product are the lists with one entry of each axis, in the order of the axes. -/
theorem mem_tuples {axes : List (List α)} {t : List α} :
    t ∈ tuples axes ↔ List.Forall₂ (fun x axis => x ∈ axis) t axes := by
  induction axes generalizing t with
  | nil => simp [tuples]
  | cons axis axes ih =>
    simp only [tuples, List.mem_flatMap, List.mem_map, ih]
    constructor
    · rintro ⟨x, hx, u, hu, rfl⟩
      exact .cons hx hu
    · intro h
      cases h with
      | cons hx hu => exact ⟨_, hx, _, hu, rfl⟩

theorem length_of_mem_tuples {axes : List (List α)} {t : List α} (h : t ∈ tuples axes) :
    t.length = axes.length :=
  (mem_tuples.mp h).length_eq

theorem length_tuples (axes : List (List α)) :
    (tuples axes).length = (axes.map List.length).prod := by
  induction axes with
  | nil => rfl
  | cons axis axes ih => simp [tuples, List.length_flatMap, ih]

/-- No tuple of a product repeats when no axis repeats an entry. -/
theorem nodup_tuples {axes : List (List α)} (h : ∀ axis ∈ axes, axis.Nodup) :
    (tuples axes).Nodup := by
  induction axes with
  | nil => simp [tuples]
  | cons axis axes ih =>
    have hrest : (tuples axes).Nodup := ih fun a ha => h a (List.mem_cons_of_mem _ ha)
    rw [tuples, List.nodup_flatMap]
    refine ⟨fun x _ => hrest.map (List.cons_injective), ?_⟩
    refine (h axis List.mem_cons_self).imp ?_
    intro x y hxy t htx hty
    obtain ⟨u, _, rfl⟩ := List.mem_map.mp htx
    obtain ⟨v, _, hv⟩ := List.mem_map.mp hty
    exact hxy (List.cons.inj hv).1.symm

/-- The tuples of two groups of axes are the tuples of the first ones, each followed by those of the
second ones. -/
theorem tuples_append (as bs : List (List α)) :
    tuples (as ++ bs) = (tuples as).flatMap fun t => (tuples bs).map (t ++ ·) := by
  induction as with
  | nil => simp [tuples]
  | cons axis as ih =>
    simp only [List.cons_append, tuples, ih, List.flatMap_assoc, List.map_flatMap, List.flatMap_map,
      List.map_map, Function.comp_def]

/-- Tagging the entries of each axis tags the components of the tuples. -/
theorem tuples_tagged {β κ : Type} (tag : β → κ) (axis : β → List α) (bs : List β) :
    tuples (bs.map fun b => (axis b).map (Prod.mk (tag b))) =
      (tuples (bs.map axis)).map ((bs.map tag).zip ·) := by
  induction bs with
  | nil => rfl
  | cons b bs ih =>
    simp only [List.map_cons, tuples, ih, List.flatMap_map, List.map_flatMap, List.map_map,
      Function.comp_def, List.zip_cons_cons]

/-- The tuples of axes in another order are rearranged tuples. -/
theorem exists_perm_of_mem_tuples {axes axes' : List (List α)} (h : axes.Perm axes') {t : List α}
    (ht : t ∈ tuples axes') : ∃ u ∈ tuples axes, u.Perm t := by
  obtain ⟨u, hu, hperm⟩ := List.perm_comp_forall₂ h (mem_tuples.mp ht).flip
  exact ⟨u, mem_tuples.mpr hu.flip, hperm⟩

private theorem flatMap_swap {β γ : Type} (as : List α) (bs : List β) (f : α → β → List γ) :
    (as.flatMap fun a => bs.flatMap fun b => f a b).Perm
      (bs.flatMap fun b => as.flatMap fun a => f a b) := by
  induction as with
  | nil => simp
  | cons a as ih =>
    simp only [List.flatMap_cons]
    exact (ih.append_left _).trans (List.flatMap_append_perm bs _ _)

/-- Seen through a function that does not look at the order of components, axes in another order
have the same tuples, each as often. -/
theorem tuples_perm {β : Type} {axes axes' : List (List α)} (h : axes.Perm axes') {f : List α → β}
    (hf : ∀ t ∈ tuples axes, ∀ u, t.Perm u → f t = f u) :
    ((tuples axes).map f).Perm ((tuples axes').map f) := by
  induction h generalizing f with
  | nil => exact .refl _
  | @cons axis axes axes' _ ih =>
    simp only [tuples, List.map_flatMap, List.map_map]
    refine List.Perm.flatMap_left _ fun x hx => ih fun t ht u htu => ?_
    exact hf _ (mem_tuples.mpr (.cons hx (mem_tuples.mp ht))) _ (htu.cons x)
  | swap a b axes =>
    simp only [tuples, List.map_flatMap, List.map_map]
    refine (flatMap_swap _ _ _).trans ?_
    refine List.Perm.flatMap_left _ fun x hx => List.Perm.flatMap_left _ fun y hy => ?_
    refine List.Perm.of_eq (List.map_congr_left fun t ht => ?_)
    exact hf _ (mem_tuples.mpr (.cons hy (.cons hx (mem_tuples.mp ht)))) _ (.swap _ _ _)
  | @trans axes₁ axes₂ axes₃ h₁ _ ih₁ ih₂ =>
    refine (ih₁ hf).trans (ih₂ fun t ht u htu => ?_)
    obtain ⟨s, hs, hst⟩ := exists_perm_of_mem_tuples h₁ ht
    rw [← hf s hs t hst, hf s hs u (hst.trans htu)]

namespace Odometer

theorem count_eq_length (axes : List (List α)) : count axes = (tuples axes).length := by
  have h : ∀ n, axes.foldl (fun n axis => n * axis.length) n = n * (axes.map List.length).prod := by
    induction axes with
    | nil => simp
    | cons axis axes ih => intro n; simp [ih, Nat.mul_assoc]
  rw [count, h, Nat.one_mul, length_tuples]

private theorem min_mul_min (n k cap : Nat) : min (min n cap * k) cap = min (n * k) cap := by
  rcases Nat.eq_zero_or_pos k with rfl | hk
  · simp
  · rcases Nat.le_total n cap with h | h
    · rw [Nat.min_eq_left h]
    · have hcap : cap ≤ cap * k := Nat.le_mul_of_pos_right cap hk
      rw [Nat.min_eq_right h, Nat.min_eq_right hcap,
        Nat.min_eq_right (hcap.trans (Nat.mul_le_mul_right k h))]

/-- The size of a product is exact up to the cap. -/
theorem size_start (axes : List (List α)) :
    (start axes).size = min (axes.map List.length).prod sizeCap := by
  have h : ∀ n, axes.foldl (fun n axis => min (n * axis.length) sizeCap) (min n sizeCap) =
      min (n * (axes.map List.length).prod) sizeCap := by
    induction axes with
    | nil => simp
    | cons axis axes ih =>
      intro n
      rw [List.foldl_cons, min_mul_min, ih, List.map_cons, List.prod_cons, Nat.mul_assoc]
  have hone : min 1 sizeCap = 1 := by decide
  have h1 := h 1
  rwa [hone, Nat.one_mul] at h1

def remaining : List (List α) → List Nat → List (List α)
  | [], [] => [[]]
  | axis :: axes, p :: ps =>
    match axis.drop p with
    | [] => []
    | x :: xs => (remaining axes ps).map (x :: ·) ++ tuples (xs :: axes)
  | _, _ => []

private theorem remaining_reset (axes : List (List α)) :
    remaining axes (List.replicate axes.length 0) = tuples axes := by
  induction axes with
  | nil => rfl
  | cons axis axes ih =>
    cases axis with
    | nil => rfl
    | cons x xs => simp [remaining, tuples, List.replicate_succ, ih]

abbrev OnAxes (axes : List (List α)) (ps : List Nat) : Prop :=
  List.Forall₂ (fun axis p => p < axis.length) axes ps

private theorem OnAxes.reset {axes : List (List α)} {ps : List Nat} (h : OnAxes axes ps) :
    OnAxes axes (List.replicate axes.length 0) := by
  induction h with
  | nil => exact .nil
  | cons hp _ ih => exact .cons (Nat.zero_lt_of_lt hp) ih

private theorem onAxes_start {axes : List (List α)} (h : ∀ axis ∈ axes, axis ≠ []) :
    OnAxes axes (List.replicate axes.length 0) := by
  induction axes with
  | nil => exact .nil
  | cons axis axes ih =>
    exact .cons (List.length_pos_iff.mpr (h axis List.mem_cons_self))
      (ih fun a ha => h a (List.mem_cons_of_mem _ ha))

/-- Advancing past a tuple leaves the tuples after it, and the new positions point at entries
again. -/
theorem remaining_step {axes : List (List α)} {ps : List Nat} (h : OnAxes axes ps) :
    ∃ t, pick axes ps = some t ∧
      remaining axes ps = t :: (advance axes ps).elim [] (remaining axes) ∧
      ∀ qs, advance axes ps = some qs → OnAxes axes qs := by
  induction h with
  | nil => exact ⟨[], rfl, rfl, nofun⟩
  | @cons axis p axes ps hp hps ih =>
    obtain ⟨t, ht, hrest, hnext⟩ := ih
    have hdrop : axis.drop p = axis[p] :: axis.drop (p + 1) := List.drop_eq_getElem_cons hp
    refine ⟨axis[p] :: t, by simp [pick, ht, hp], ?_⟩
    cases hadv : advance axes ps with
    | some qs =>
      simp only [hadv, Option.elim_some] at hrest
      refine ⟨?_, ?_⟩
      · rw [remaining, hdrop, hrest, advance, hadv, Option.elim_some, remaining, hdrop]
        rfl
      · intro rs hrs
        simp only [advance, hadv, Option.some.injEq] at hrs
        exact hrs ▸ .cons hp (hnext qs hadv)
    | none =>
      simp only [hadv, Option.elim_none] at hrest
      have hreset : ps.map (fun _ => 0) = List.replicate axes.length 0 := by
        rw [List.map_const', hps.length_eq]
      -- The later axes are at their last tuple: carry into this one and reset them, or end as well.
      by_cases hp' : p + 1 < axis.length
      · have hdrop' := List.drop_eq_getElem_cons hp'
        have hcarry : advance (axis :: axes) (p :: ps) =
            some ((p + 1) :: List.replicate axes.length 0) := by
          simp [advance, hadv, hp', hreset]
        rw [hcarry]
        refine ⟨?_, ?_⟩
        · rw [Option.elim_some, remaining, remaining, hdrop, hdrop', hrest, remaining_reset]
          rfl
        · intro rs hrs
          rw [← Option.some.inj hrs]
          exact .cons hp' (OnAxes.reset hps)
      · have hend : axis.drop (p + 1) = [] := List.drop_eq_nil_of_le (Nat.le_of_not_lt hp')
        refine ⟨?_, by simp [advance, hadv, hp']⟩
        rw [remaining, hdrop, hrest, hend]
        simp [advance, hadv, hp', tuples]

/-- What is taken from an odometer are the tuples from its positions on. -/
private theorem take_remaining {axes : List (List α)} {ps : List Nat} (h : OnAxes axes ps)
    (n : Nat) : take n ⟨axes, some ps⟩ = (remaining axes ps).take n := by
  induction n generalizing ps with
  | zero => rfl
  | succ n ih =>
    obtain ⟨t, ht, hrest, hnext⟩ := remaining_step h
    rw [hrest, List.take_succ_cons]
    simp only [take, next?, ht, Option.map_some]
    cases hadv : advance axes ps with
    | none => cases n <;> rfl
    | some qs => exact congrArg (t :: ·) (ih (hnext qs hadv))

/-- Any number of requests gives so many of the first tuples of the product, and no others. -/
theorem take_start_eq_take (axes : List (List α)) (n : Nat) :
    (start axes).take n = (tuples axes).take n := by
  by_cases h : ∀ axis ∈ axes, axis ≠ []
  · have hany : axes.any List.isEmpty = false := by simpa using h
    rw [start, hany, if_neg (by simp), List.map_const', take_remaining (onAxes_start h),
      remaining_reset]
  · have hany : axes.any List.isEmpty = true := by simpa using h
    have hnone : tuples axes = [] := by
      rw [← List.length_eq_zero_iff, length_tuples, List.prod_eq_zero_iff]
      simpa using h
    rw [start, hany, hnone, List.take_nil]
    cases n <;> rfl

/-- Stepping an odometer to its end gives the tuples of its product. -/
theorem take_start (axes : List (List α)) : (start axes).take (count axes) = tuples axes := by
  rw [take_start_eq_take, count_eq_length, List.take_length]

theorem foldM_eq_take {ε σ : Type} (step : σ → List α → Except ε σ) (n : Nat) (o : Odometer α)
    (s : σ) : foldM step n o s = (take n o).foldlM step s := by
  induction n generalizing o s with
  | zero => rfl
  | succ n ih =>
    rw [foldM, take]
    cases o.next? with
    | none => rfl
    | some next =>
      obtain ⟨t, o'⟩ := next
      rw [List.foldlM_cons]
      simp only [ih]
      cases step s t <;> rfl

/-- Running a step over all tuples of a product is folding it over the list of them, up to the
first failure. -/
theorem forAll_eq_foldlM {ε σ : Type} (axes : List (List α)) (step : σ → List α → Except ε σ)
    (s : σ) : forAll axes step s = (tuples axes).foldlM step s := by
  rw [forAll, foldM_eq_take, take_start]

end Odometer

end Milp
