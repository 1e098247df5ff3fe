import Milp.Dyadic
import Milp.Proofs.Decimal.Finite

/-! The order of doubles. Equality and the two strict relations come from one comparison, which is
reversed when its operands are exchanged and has no outcome for a NaN only. Doubles that integers
are converted to are never a NaN. -/
namespace Milp

namespace Double

open Float.Model Float.Model.UnpackedFloat

theorem compare_sign_swap (s t : Sign) : compare t s = (compare s t).swap := by
  cases s <;> cases t <;> rfl

theorem compare_swap (a b : UnpackedFloat) : b.compare a = (a.compare b).map Ordering.swap := by
  cases a with
  | notANumber => cases b <;> rfl
  | infinity s =>
    cases b with
    | infinity t => exact congrArg some (compare_sign_swap s t)
    | notANumber => cases s <;> rfl
    | zero t => cases s <;> rfl
    | finite t m e hm => cases s <;> cases t <;> rfl
  | zero s =>
    cases b with
    | infinity t => cases t <;> rfl
    | notANumber => rfl
    | zero t => rfl
    | finite t m e hm => cases t <;> rfl
  | finite s m e hm =>
    cases b with
    | infinity t => cases s <;> cases t <;> rfl
    | notANumber => cases s <;> rfl
    | zero t => cases s <;> rfl
    | finite t n d hn =>
      have hmagnitude : ((compare d e).then (compare n m)) =
          ((compare e d).then (compare m n)).swap := by
        rw [Ordering.swap_then, Int.compare_swap, Nat.compare_swap]
      match s, t with
      | .positive, .positive => exact congrArg some hmagnitude
      | .negative, .negative => exact congrArg (fun o : Ordering => some o.swap) hmagnitude
      | .positive, .negative => rfl
      | .negative, .positive => rfl

/-- Two doubles are compared unless one of them is a NaN. -/
theorem compare_eq_none {a b : UnpackedFloat} :
    a.compare b = none ↔ a.isNaN = true ∨ b.isNaN = true := by
  rw [isNaN_iff, isNaN_iff]
  constructor
  · intro h
    rw [UnpackedFloat.compare.eq_def] at h
    split at h
    case h_1 => exact .inl rfl
    case h_2 => exact .inr rfl
    all_goals cases h
  · rintro (rfl | rfl)
    · rfl
    · cases a <;> rfl

theorem not_isNaN_of_isFinite {x : Float} (h : x.isFinite = true) : x.isNaN = false := by
  change x.toModel.unpack.isFinite = true at h
  change x.toModel.unpack.isNaN = false
  cases hu : x.toModel.unpack with
  | notANumber =>
    rw [hu] at h
    cases h
  | _ => rfl

end Double

/-- The equality and the order of doubles are those of one comparison. -/
theorem compareDoubles_eq (x y : Float) :
    compareDoubles x y = x.toModel.unpack.compare y.toModel.unpack := by
  have heq : (x == y) = (x.toModel.unpack.compare y.toModel.unpack == some .eq) := rfl
  have hlt (x y : Float) : x < y ↔ x.toModel.unpack.compare y.toModel.unpack = some .lt := by
    rw [← beq_iff_eq]
    change decide (x.toModel < y.toModel) = true ↔ _
    rw [decide_eq_true_iff]
    rfl
  rw [compareDoubles, heq, if_congr (hlt x y) rfl rfl, if_congr (hlt y x) rfl rfl,
    Double.compare_swap x.toModel.unpack]
  cases x.toModel.unpack.compare y.toModel.unpack with
  | none => rfl
  | some o => cases o <;> rfl

theorem compareDoubles_swap (x y : Float) :
    compareDoubles y x = (compareDoubles x y).map Ordering.swap := by
  rw [compareDoubles_eq, compareDoubles_eq, Double.compare_swap]

theorem compareDoubles_eq_none {x y : Float} :
    compareDoubles x y = none ↔ x.isNaN = true ∨ y.isNaN = true := by
  rw [compareDoubles_eq, Double.compare_eq_none]
  rfl

theorem beq_iff_compareDoubles {x y : Float} : (x == y) = true ↔ compareDoubles x y = some .eq := by
  rw [compareDoubles_eq, ← beq_iff_eq (a := x.toModel.unpack.compare _)]
  rfl

theorem isNaN_nearestDouble (v : Int64) : (nearestDouble v).isNaN = false := by
  refine Double.not_isNaN_of_isFinite ?_
  rw [nearestDouble]
  split
  · exact Double.isFinite_neg (Double.isFinite_toFloat _)
  · exact Double.isFinite_toFloat _

end Milp
