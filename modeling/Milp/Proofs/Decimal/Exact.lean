import Mathlib
import Milp.Dyadic
import Milp.Proofs.Decimal.Finite

/-! The exact value of a double, read from its bits. The value determines the double, and every
finite double has one. -/
namespace Milp.Dyadic

/-- Whether a dyadic can be the exact value of a double: but for the least exponent, the significand
has all its bits. -/
structure Legal (d : Dyadic) : Prop where
  bits : d.significand < 2 ^ 53
  lowest : -1074 ≤ d.exponent
  highest : d.exponent ≤ 971
  full : -1074 < d.exponent → 2 ^ 52 ≤ d.significand

def signBit (x : Float) : Bool := decide (2 ^ 63 ≤ x.toBits.toNat)

def biased (x : Float) : ℕ := x.toBits.toNat / 2 ^ 52 % 2 ^ 11

def fraction (x : Float) : ℕ := x.toBits.toNat % 2 ^ 52

theorem biased_lt (x : Float) : biased x < 2048 := Nat.mod_lt _ (by norm_num)

theorem fraction_lt (x : Float) : fraction x < 2 ^ 52 := Nat.mod_lt _ (by norm_num)

/-- A double is determined by its fields. -/
theorem eq_of_fields {x y : Float} (hsign : signBit x = signBit y) (hbiased : biased x = biased y)
    (hfraction : fraction x = fraction y) : x = y := by
  have hx := x.toBits.toNat_lt
  have hy := y.toBits.toNat_lt
  rw [signBit, signBit, decide_eq_decide] at hsign
  rw [biased, biased] at hbiased
  rw [fraction, fraction] at hfraction
  rw [← Float.toBits_inj, ← UInt64.toNat_inj]
  omega

/-- The significand of a double with the least exponent has no leading bit. -/
theorem ofFloat?_eq (x : Float) :
    ofFloat? x = if biased x = 2047 then none
      else if biased x = 0 then some ⟨signBit x, fraction x, -1074⟩
      else some ⟨signBit x, 2 ^ 52 + fraction x, biased x - 1075⟩ := rfl

theorem ofFloat?_eq_some {x : Float} {d : Dyadic} (h : ofFloat? x = some d) :
    d.negative = signBit x ∧ biased x < 2047 ∧
      (biased x = 0 ∧ d.significand = fraction x ∧ d.exponent = -1074 ∨
        biased x ≠ 0 ∧ d.significand = 2 ^ 52 + fraction x ∧ d.exponent = biased x - 1075) := by
  have hbound := biased_lt x
  rw [ofFloat?_eq] at h
  split at h
  case isTrue => cases h
  case isFalse hspecial =>
    split at h
    case isTrue hzero =>
      cases h
      exact ⟨rfl, by omega, .inl ⟨hzero, rfl, rfl⟩⟩
    case isFalse hpos =>
      cases h
      exact ⟨rfl, by omega, .inr ⟨hpos, rfl, rfl⟩⟩

theorem legal_ofFloat? {x : Float} {d : Dyadic} (h : ofFloat? x = some d) : d.Legal := by
  have hfraction := fraction_lt x
  obtain ⟨-, hbiased, ⟨-, hm, he⟩ | ⟨hpos, hm, he⟩⟩ := ofFloat?_eq_some h
  · exact ⟨by omega, by omega, by omega, by omega⟩
  · exact ⟨by omega, by omega, by omega, by omega⟩

/-- No two doubles have the same exact value, the zeros included: these differ in their sign. -/
theorem ofFloat?_inj {x y : Float} {d : Dyadic} (hx : ofFloat? x = some d)
    (hy : ofFloat? y = some d) : x = y := by
  have hfraction := fraction_lt x
  have hfraction' := fraction_lt y
  obtain ⟨hsign, -, hfields⟩ := ofFloat?_eq_some hx
  obtain ⟨hsign', -, hfields'⟩ := ofFloat?_eq_some hy
  exact eq_of_fields (hsign ▸ hsign') (by omega) (by omega)

theorem toNat_unpackExponent (x : Float) :
    (@Float.Model.UnpackedFloat.unpackExponent .binary64 x.toModel.toBits.toBitVec).toNat =
      biased x := by
  rw [Float.Model.UnpackedFloat.unpackExponent, BitVec.toNat_cast, BitVec.extractLsb_toNat,
    Nat.shiftRight_eq_div_pow]
  rfl

/-- Only infinities and NaN have no exact value. -/
theorem exists_ofFloat? {x : Float} (h : x.isFinite = true) : ∃ d, ofFloat? x = some d := by
  have hbiased : biased x ≠ 2047 := by
    rw [← toNat_unpackExponent]
    exact fun hall => Double.isFinite_unpack.mp h (BitVec.eq_of_toNat_eq hall)
  rw [ofFloat?_eq, if_neg hbiased]
  split
  · exact ⟨_, rfl⟩
  · exact ⟨_, rfl⟩

end Milp.Dyadic
