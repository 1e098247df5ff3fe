import Mathlib
import Milp.Error

/-! Computations that can fail. A chain succeeds when each step does, and fails with the failure
of its first step that fails. -/
namespace Milp

variable {ε α β σ : Type}

theorem bind_eq_ok {x : Except ε α} {f : α → Except ε β} {b : β} :
    (x >>= f) = .ok b ↔ ∃ a, x = .ok a ∧ f a = .ok b := by
  cases x <;> simp [bind, Except.bind]

theorem bind_eq_error {x : Except ε α} {f : α → Except ε β} {e : ε} :
    (x >>= f) = .error e ↔ x = .error e ∨ ∃ a, x = .ok a ∧ f a = .error e := by
  cases x <;> simp [bind, Except.bind]

@[simp] theorem ok_bind (a : α) (f : α → Except ε β) : (Except.ok a >>= f) = f a := rfl

@[simp] theorem error_bind (e : ε) (f : α → Except ε β) :
    ((Except.error e : Except ε α) >>= f) = .error e := rfl

@[simp] theorem pure_eq_ok (a : α) : (pure a : Except ε α) = .ok a := rfl

theorem map_eq_ok {x : Except ε α} {f : α → β} {b : β} :
    x.map f = .ok b ↔ ∃ a, x = .ok a ∧ f a = b := by
  cases x <;> simp [Except.map]

theorem map_bind {γ : Type} (x : Except ε α) (f : α → β) (g : β → Except ε γ) :
    (x.map f >>= g) = (x >>= fun a => g (f a)) := by
  cases x <;> rfl

theorem bind_map {γ : Type} (x : Except ε α) (f : α → Except ε β) (g : β → γ) :
    (x >>= f).map g = (x >>= fun a => (f a).map g) := by
  cases x <;> rfl

/-- A check in front of a computation has to pass. -/
theorem check_bind_eq_ok {x : Except ε Unit} {y : Except ε β} {b : β} :
    (x >>= fun _ => y) = .ok b ↔ x = .ok () ∧ y = .ok b := by
  cases x <;> simp [bind, Except.bind]

/-- A list of computations succeeds exactly when each of them does. -/
theorem mapM_eq_ok {f : α → Except ε β} {as : List α} {bs : List β} :
    as.mapM f = .ok bs ↔ List.Forall₂ (fun a b => f a = .ok b) as bs := by
  induction as generalizing bs with
  | nil =>
    rw [List.mapM_nil, List.forall₂_nil_left_iff, pure_eq_ok, Except.ok.injEq]
    exact eq_comm
  | cons a as ih =>
    simp only [List.mapM_cons, bind_eq_ok, pure_eq_ok, Except.ok.injEq, ih,
      List.forall₂_cons_left_iff]
    constructor
    · rintro ⟨b, hb, cs, hcs, rfl⟩
      exact ⟨b, cs, hb, hcs, rfl⟩
    · rintro ⟨b, cs, hb, hcs, rfl⟩
      exact ⟨b, hb, cs, hcs, rfl⟩

theorem exists_forall₂ {R : α → β → Prop} {as : List α} :
    (∃ bs, List.Forall₂ R as bs) ↔ ∀ a ∈ as, ∃ b, R a b := by
  induction as with
  | nil => exact iff_of_true ⟨[], .nil⟩ nofun
  | cons a as ih =>
    rw [List.forall_mem_cons, ← ih]
    constructor
    · rintro ⟨_, hall⟩
      cases hall with
      | cons hb hbs => exact ⟨⟨_, hb⟩, _, hbs⟩
    · rintro ⟨⟨b, hb⟩, bs, hbs⟩
      exact ⟨b :: bs, .cons hb hbs⟩

theorem exists_of_mem_forall₂ {R : α → β → Prop} {as : List α} {bs : List β}
    (h : List.Forall₂ R as bs) {a : α} (ha : a ∈ as) : ∃ b ∈ bs, R a b := by
  induction h with
  | nil => cases ha
  | cons hab _ ih =>
    rcases List.mem_cons.mp ha with rfl | ha
    · exact ⟨_, List.mem_cons_self, hab⟩
    · obtain ⟨b, hb, hab⟩ := ih ha
      exact ⟨b, List.mem_cons_of_mem _ hb, hab⟩

/-- Two lists that belong to the same list, element by element, belong to each other. -/
theorem forall₂_of_common {γ : Type} {R : α → β → Prop} {S : α → γ → Prop} {T : β → γ → Prop}
    {as : List α} {bs : List β} {cs : List γ} (hbs : List.Forall₂ R as bs)
    (hcs : List.Forall₂ S as cs) (h : ∀ a ∈ as, ∀ b c, R a b → S a c → T b c) :
    List.Forall₂ T bs cs := by
  induction hbs generalizing cs with
  | nil =>
    cases hcs
    exact .nil
  | cons hb _ ih =>
    cases hcs with
    | cons hc hcs =>
      rw [List.forall_mem_cons] at h
      exact .cons (h.1 _ _ hb hc) (ih hcs h.2)

theorem mapM_isOk {f : α → Except ε β} {as : List α} :
    (∃ bs, as.mapM f = .ok bs) ↔ ∀ a ∈ as, ∃ b, f a = .ok b := by
  simp only [mapM_eq_ok, exists_forall₂]

theorem forM_eq_ok {f : α → Except ε Unit} {as : List α} :
    as.forM f = .ok () ↔ ∀ a ∈ as, f a = .ok () := by
  induction as with
  | nil => exact iff_of_true rfl nofun
  | cons a as ih =>
    change (f a >>= fun _ => as.forM f) = _ ↔ _
    rw [List.forall_mem_cons, ← ih, bind_eq_ok]
    exact ⟨fun ⟨_, ha, has⟩ => ⟨ha, has⟩, fun ⟨ha, has⟩ => ⟨(), ha, has⟩⟩

/-- Every failure that the computation can end in satisfies a predicate. -/
def FailsOnly (p : ε → Prop) (x : Except ε α) : Prop := ∀ e, x = .error e → p e

namespace FailsOnly

variable {p : ε → Prop}

theorem ok (a : α) : FailsOnly p (.ok a : Except ε α) := nofun

theorem error {e : ε} (h : p e) : FailsOnly p (.error e : Except ε α) := by
  rintro _ ⟨⟩
  exact h

theorem imp {q : ε → Prop} {x : Except ε α} (hx : FailsOnly p x) (h : ∀ e, p e → q e) :
    FailsOnly q x :=
  fun e he => h e (hx e he)

/-- What follows a computation only runs on its result. -/
theorem bind_of_ok {x : Except ε α} {f : α → Except ε β} (hx : FailsOnly p x)
    (hf : ∀ a, x = .ok a → FailsOnly p (f a)) : FailsOnly p (x >>= f) := by
  intro e h
  rcases bind_eq_error.mp h with h | ⟨a, ha, h⟩
  · exact hx e h
  · exact hf a ha e h

theorem bind {x : Except ε α} {f : α → Except ε β} (hx : FailsOnly p x)
    (hf : ∀ a, FailsOnly p (f a)) : FailsOnly p (x >>= f) :=
  bind_of_ok hx fun a _ => hf a

theorem map {x : Except ε α} (hx : FailsOnly p x) (f : α → β) : FailsOnly p (x.map f) := by
  cases x with
  | error e => exact error (hx e rfl)
  | ok a => exact ok _

theorem mapM {f : α → Except ε β} {as : List α} (h : ∀ a ∈ as, FailsOnly p (f a)) :
    FailsOnly p (as.mapM f) := by
  induction as with
  | nil => exact ok _
  | cons a as ih =>
    rw [List.mapM_cons]
    refine bind (h a List.mem_cons_self) fun b => bind ?_ fun bs => ok _
    exact ih fun a' ha' => h a' (List.mem_cons_of_mem _ ha')

theorem forM {f : α → Except ε PUnit} {as : List α} (h : ∀ a ∈ as, FailsOnly p (f a)) :
    FailsOnly p (as.forM f) := by
  induction as with
  | nil => exact ok _
  | cons a as ih =>
    refine bind (h a List.mem_cons_self) fun _ => ?_
    exact ih fun a' ha' => h a' (List.mem_cons_of_mem _ ha')

theorem foldlM {f : σ → α → Except ε σ} {as : List α} (h : ∀ s, ∀ a ∈ as, FailsOnly p (f s a))
    (s : σ) : FailsOnly p (as.foldlM f s) := by
  induction as generalizing s with
  | nil => exact ok _
  | cons a as ih =>
    rw [List.foldlM_cons]
    refine bind (h s a List.mem_cons_self) fun s' => ?_
    exact ih (fun s a' ha' => h s a' (List.mem_cons_of_mem _ ha')) s'

end FailsOnly

end Milp
