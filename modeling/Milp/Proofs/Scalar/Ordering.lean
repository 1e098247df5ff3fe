import Milp.Proofs.Decimal.Order
import Milp.Scalar.Ordering

/-! Comparison of host scalars. Two scalars of comparable kinds are ordered unless one is a NaN, and
every relation is read off that order: so equality agrees with the order, exchanging the operands
mirrors the relation, and a NaN is only ever unequal. A string and a number are unequal and have no
order. -/
namespace Milp

namespace Relation

def mirror : Relation → Relation
  | le => ge
  | lt => gt
  | eq => eq
  | gt => lt
  | ge => le
  | ne => ne

/-- Whether a relation holds for an order that may be missing, in which case only `ne` does. -/
def answer (r : Relation) : Option Ordering → Bool
  | some o => r.holds o
  | none => decide (r = ne)

theorem answer_mirror (r : Relation) (o : Option Ordering) :
    r.mirror.answer (o.map Ordering.swap) = r.answer o := by
  cases o with
  | none => cases r <;> rfl
  | some o => cases r <;> cases o <;> rfl

theorem answer_ne (o : Option Ordering) : answer .ne o = !answer .eq o := by
  cases o with
  | none => rfl
  | some o => cases o <;> rfl

theorem answer_le (o : Option Ordering) : answer .le o = (answer .lt o || answer .eq o) := by
  cases o with
  | none => rfl
  | some o => cases o <;> rfl

theorem answer_ge (o : Option Ordering) : answer .ge o = (answer .gt o || answer .eq o) := by
  cases o with
  | none => rfl
  | some o => cases o <;> rfl

theorem answer_trichotomy (o : Ordering) :
    ∃! r, r ∈ [lt, eq, gt] ∧ answer r (some o) = true := by
  cases o with
  | lt => exact ⟨lt, by decide, fun r h => by revert h; cases r <;> decide⟩
  | eq => exact ⟨eq, by decide, fun r h => by revert h; cases r <;> decide⟩
  | gt => exact ⟨gt, by decide, fun r h => by revert h; cases r <;> decide⟩

end Relation

namespace Scalar

def isNaN : Scalar → Bool
  | float x => x.isNaN
  | _ => false

def orderMismatch (relation : Relation) (l r : Scalar) (scope : Scope) : Error :=
  .typeMismatch relation.name
    ("cannot order " ++ l.kind ++ " " ++ quoted l.text ++ " against " ++ r.kind ++ " "
      ++ quoted r.text) scope.snapshot

theorem equal_iff_compare? (a b : Scalar) : a.equal b = true ↔ a.compare? b = some .eq := by
  match a, b with
  | int m, int n => simp [equal, compare?]
  | str s, str t => simp [equal, compare?]
  | int m, float y => exact beq_iff_compareDoubles
  | float x, int n => exact beq_iff_compareDoubles
  | float x, float y => exact beq_iff_compareDoubles
  | int m, str t => simp [equal, compare?]
  | str s, int n => simp [equal, compare?]
  | float x, str t => simp [equal, compare?]
  | str s, float y => simp [equal, compare?]

theorem compare?_swap (a b : Scalar) : b.compare? a = (a.compare? b).map Ordering.swap := by
  match a, b with
  | int m, int n => exact congrArg some Std.OrientedOrd.eq_swap
  | str s, str t => exact congrArg some Std.OrientedOrd.eq_swap
  | int m, float y => exact compareDoubles_swap _ _
  | float x, int n => exact compareDoubles_swap _ _
  | float x, float y => exact compareDoubles_swap _ _
  | int m, str t => rfl
  | str s, int n => rfl
  | float x, str t => rfl
  | str s, float y => rfl

theorem compare?_eq_none {a b : Scalar} :
    a.compare? b = none ↔ a.isNumeric ≠ b.isNumeric ∨ a.isNaN = true ∨ b.isNaN = true := by
  match a, b with
  | int m, int n => simp [compare?, isNumeric, isNaN]
  | str s, str t => simp [compare?, isNumeric, isNaN]
  | int m, float y =>
    simp only [compare?, compareDoubles_eq_none, isNaN_nearestDouble, isNumeric, isNaN, ne_eq,
      not_true_eq_false, false_or]
  | float x, int n =>
    simp only [compare?, compareDoubles_eq_none, isNaN_nearestDouble, isNumeric, isNaN, ne_eq,
      not_true_eq_false, false_or]
  | float x, float y =>
    simp only [compare?, compareDoubles_eq_none, isNumeric, isNaN, ne_eq, not_true_eq_false,
      false_or]
  | int m, str t => simp [compare?, isNumeric]
  | str s, int n => simp [compare?, isNumeric]
  | float x, str t => simp [compare?, isNumeric]
  | str s, float y => simp [compare?, isNumeric]

/-- Equality and its negation need no order. -/
theorem related_eq (a b : Scalar) (scope : Scope) :
    related .eq a b scope = .ok (Relation.answer .eq (a.compare? b)) ∧
      related .ne a b scope = .ok (Relation.answer .ne (a.compare? b)) := by
  have hequal : a.equal b = Relation.answer .eq (a.compare? b) := by
    rw [Bool.eq_iff_iff, equal_iff_compare?]
    cases a.compare? b with
    | none => simp [Relation.answer]
    | some o => cases o <;> simp [Relation.answer, Relation.holds]
  rw [Relation.answer_ne, ← hequal]
  exact ⟨rfl, rfl⟩

/-- Scalars of comparable kinds are related as their order says. -/
theorem related_of_comparable {a b : Scalar} (h : a.isNumeric = b.isNumeric) (r : Relation)
    (scope : Scope) : related r a b scope = .ok (r.answer (a.compare? b)) := by
  have hkinds : ¬ (a.isNumeric != b.isNumeric) = true := by simp [h]
  cases r with
  | eq => exact (related_eq a b scope).1
  | ne => exact (related_eq a b scope).2
  | _ =>
    simp only [related, if_neg hkinds]
    cases a.compare? b <;> rfl

/-- A string and a number have no order. -/
theorem related_of_incomparable {a b : Scalar} (h : a.isNumeric ≠ b.isNumeric) {r : Relation}
    (heq : r ≠ .eq) (hne : r ≠ .ne) (scope : Scope) :
    related r a b scope = .error (orderMismatch r a b scope) := by
  have hkinds : (a.isNumeric != b.isNumeric) = true := by simpa using h
  cases r with
  | eq => exact absurd rfl heq
  | ne => exact absurd rfl hne
  | _ => exact if_pos hkinds

/-- Comparisons are consistent. Equality is the equality of the order. A string and a number are
never equal, and ordering them fails. Otherwise no relation fails, each is the mirror image of
another with exchanged operands, and they are negations and unions of each other as their symbols
say; exactly one of less, equal and greater holds, unless there is a NaN, for which only unequal
does. -/
theorem related_consistent (a b : Scalar) (scope : Scope) :
    (a.equal b = true ↔ a.compare? b = some .eq) ∧
    (a.isNumeric ≠ b.isNumeric →
      related .eq a b scope = .ok false ∧ related .ne a b scope = .ok true ∧
      ∀ r, r ≠ .eq → r ≠ .ne → related r a b scope = .error (orderMismatch r a b scope)) ∧
    (a.isNumeric = b.isNumeric → ∃ holds : Relation → Bool,
      (∀ r, related r a b scope = .ok (holds r) ∧ related r.mirror b a scope = .ok (holds r)) ∧
      (holds .ne = !holds .eq) ∧
      (holds .le = (holds .lt || holds .eq)) ∧
      (holds .ge = (holds .gt || holds .eq)) ∧
      (a.isNaN = false → b.isNaN = false → ∃! r, r ∈ [.lt, .eq, .gt] ∧ holds r = true) ∧
      (a.isNaN = true ∨ b.isNaN = true → ∀ r, holds r = decide (r = .ne))) := by
  refine ⟨equal_iff_compare? a b, fun h => ?_, fun h => ?_⟩
  · have hnone : a.compare? b = none := compare?_eq_none.mpr (.inl h)
    obtain ⟨heq, hne⟩ := related_eq a b scope
    rw [hnone] at heq hne
    exact ⟨heq, hne, fun r hr hr' => related_of_incomparable h hr hr' scope⟩
  · refine ⟨fun r => r.answer (a.compare? b), fun r => ⟨related_of_comparable h r scope, ?_⟩,
      Relation.answer_ne _, Relation.answer_le _, Relation.answer_ge _, fun ha hb => ?_,
      fun hnan r => ?_⟩
    · rw [related_of_comparable h.symm, compare?_swap a b, Relation.answer_mirror]
    · cases ho : a.compare? b with
      | some o => exact Relation.answer_trichotomy o
      | none =>
        rcases compare?_eq_none.mp ho with hkinds | hnan | hnan
        · exact absurd h hkinds
        · simp [ha] at hnan
        · simp [hb] at hnan
    · rw [compare?_eq_none.mpr (.inr hnan)]
      rfl

/-- A string against a number, two numbers, and a NaN against a number. -/
theorem related_consistent_kinds :
    ((str "1").isNumeric ≠ (int 1).isNumeric ∧ related .ne (str "1") (int 1) [] = .ok true ∧
      related .le (str "1") (int 1) [] = .error (orderMismatch .le (str "1") (int 1) [])) ∧
    ((int 1).isNumeric = (float 2.5).isNumeric ∧ (int 1).isNaN = false ∧ (float 2.5).isNaN = false ∧
      ∃ holds : Relation → Bool, (∀ r, related r (int 1) (float 2.5) [] = .ok (holds r)) ∧
        (∀ r, related r.mirror (float 2.5) (int 1) [] = .ok (holds r)) ∧
        ∃! r, r ∈ [.lt, .eq, .gt] ∧ holds r = true) ∧
    (float (0 / 0)).isNumeric = (int 1).isNumeric ∧ (float (0 / 0)).isNaN = true ∧
      ∃ holds : Relation → Bool, (∀ r, related r (float (0 / 0)) (int 1) [] = .ok (holds r)) ∧
        ∀ r, holds r = decide (r = .ne) := by
  have hkinds : (str "1").isNumeric ≠ (int 1).isNumeric := by decide
  obtain ⟨_, hne, horder⟩ := (related_consistent (str "1") (int 1) []).2.1 hkinds
  have hone : (int 1).isNaN = false := rfl
  have htwo : (float 2.5).isNaN = false := by decide +kernel
  obtain ⟨holds, hholds, _, _, _, hexactly, _⟩ :=
    (related_consistent (int 1) (float 2.5) []).2.2 rfl
  have hnan : (float (0 / 0)).isNaN = true := by decide +kernel
  obtain ⟨holds', hholds', _, _, _, _, honly⟩ :=
    (related_consistent (float (0 / 0)) (int 1) []).2.2 rfl
  exact ⟨⟨hkinds, hne, horder .le nofun nofun⟩,
    ⟨rfl, hone, htwo, holds, fun r => (hholds r).1, fun r => (hholds r).2, hexactly hone htwo⟩,
    rfl, hnan, holds', fun r => (hholds' r).1, honly (.inl hnan)⟩

end Scalar

end Milp
