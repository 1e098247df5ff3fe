import Mathlib
import Milp.Decimal.Literal

/-! Finiteness of the doubles that literals of documents stand for. A packed double is an infinity
only where its exponent is too large, so the exponents of conversions, products and quotients are
followed through rounding. Quotients are safe because all divisors are at least two. -/
namespace Milp.Double

open Float.Model Float.Model.UnpackedFloat

/-! ### Packing -/

/-- Whether an unpacked double is zero, or small enough to have a finite packed form. -/
def Fits : UnpackedFloat → Prop
  | .zero _ => True
  | .finite _ _ e _ => e ≤ 971
  | .infinity _ => False
  | .notANumber => False

theorem isFinite_unpack {b : BitVec Format.binary64.numBits} :
    (UnpackedFloat.unpack .binary64 b).isFinite = true ↔
      @unpackExponent .binary64 b ≠ -1#_ := by
  rw [UnpackedFloat.unpack]
  split
  · rename_i h
    split <;> simp [UnpackedFloat.isFinite, h]
  · rename_i h
    split
    · split <;> simpa [UnpackedFloat.isFinite] using h
    · simpa [UnpackedFloat.isFinite] using h

theorem isFinite_pack {u : UnpackedFloat} (h : Fits u) :
    (UnpackedFloat.unpack .binary64 (UnpackedFloat.pack .binary64 u)).isFinite = true := by
  rw [isFinite_unpack]
  cases u with
  | infinity s => cases h
  | notANumber => cases h
  | zero s =>
    rw [UnpackedFloat.pack, packedZero, unpackExponent_packComponents]
    decide
  | finite s m e hm =>
    have he : e ≤ 971 := h
    have hbias : (Format.binary64.exponentBias : Int) = 1023 := rfl
    have hlow : ¬ 2048 ≤ (e + 1023 + 52).toNat + 1 := by omega
    have hpow : 2 ^ Format.binary64.exponentBits = 2048 := rfl
    rw [UnpackedFloat.pack]
    simp only [hbias, hpow, Nat.cast_ofNat, hlow, if_false]
    split
    · rw [unpackExponent_packComponents]
      intro hall
      have hnat := congrArg BitVec.toNat hall
      simp at hnat
      omega
    · rw [unpackExponent_packComponents]
      decide

theorem isInf_packedInfinity (s : Sign) :
    (UnpackedFloat.unpack .binary64 (packedInfinity .binary64 s)).isInf = true := by
  rw [UnpackedFloat.unpack, packedInfinity]
  simp only [unpackExponent_packComponents, unpackMantissa_packComponents, if_true]
  rfl

/-- What is too large is packed as an infinity, and nothing but a NaN as a NaN. -/
theorem isFinite_or_isInf_pack {u : UnpackedFloat} (h : u ≠ .notANumber) :
    (UnpackedFloat.unpack .binary64 (UnpackedFloat.pack .binary64 u)).isFinite = true ∨
      (UnpackedFloat.unpack .binary64 (UnpackedFloat.pack .binary64 u)).isInf = true := by
  cases u with
  | notANumber => exact absurd rfl h
  | zero s => exact .inl (isFinite_pack trivial)
  | infinity s => exact .inr (isInf_packedInfinity s)
  | finite s m e hm =>
    by_cases he : e ≤ 971
    · exact .inl (isFinite_pack he)
    · right
      have hbias : (Format.binary64.exponentBias : Int) = 1023 := rfl
      have hpow : 2 ^ Format.binary64.exponentBits = 2048 := rfl
      have hlarge : 2048 ≤ (e + 1023 + 52).toNat + 1 := by omega
      rw [UnpackedFloat.pack]
      simp only [hbias, hpow, Nat.cast_ofNat, hlarge, if_true]
      exact isInf_packedInfinity s

/-- The mantissa and the exponent of a finite double. -/
theorem unpack_bounds {b : BitVec Format.binary64.numBits} {s : Sign} {m : Nat} {e : Int}
    {hm : 0 < m} (h : UnpackedFloat.unpack .binary64 b = .finite s m e hm) :
    m < 2 ^ 53 ∧ e ≤ 971 := by
  have hfinite : (UnpackedFloat.unpack .binary64 b).isFinite = true := by rw [h]; rfl
  have hexponent : (@unpackExponent .binary64 b).toNat < 2047 := by
    have hlt : (@unpackExponent .binary64 b).toNat < 2048 := BitVec.isLt _
    have hne : (@unpackExponent .binary64 b).toNat ≠ 2047 := fun hall =>
      isFinite_unpack.mp hfinite (BitVec.eq_of_toNat_eq hall)
    omega
  have hbias : (Format.binary64.exponentBias : Int) = 1023 := rfl
  have hbits : ((Format.binary64.mantissaBitsWithoutImplicit : Nat) : Int) = 52 := rfl
  rw [UnpackedFloat.unpack] at h
  simp only [hbias, hbits] at h
  split at h
  · split at h <;> cases h
  · split at h
    case isTrue hzero =>
      split at h
      · cases h
      · injection h with _ hmantissa he
        have hlt : (@unpackMantissa .binary64 b).toNat < 2 ^ 52 := BitVec.isLt _
        rw [hzero, BitVec.toNat_ofNat] at he
        omega
    case isFalse =>
      injection h with _ hmantissa he
      refine ⟨?_, by omega⟩
      rw [← hmantissa]
      exact BitVec.isLt _

/-- Unpacking a packed number keeps its exponent where the mantissa has all its bits. -/
theorem exists_unpack_pack (s : Sign) {m : Nat} {e : Int} (hm : 0 < m) (hlog : m.log2 = 52)
    (hlow : -1074 ≤ e) (hhigh : e ≤ 971) :
    ∃ s' m', ∃ hm' : 0 < m', m'.log2 = 52 ∧
      UnpackedFloat.unpack .binary64 (UnpackedFloat.pack .binary64 (.finite s m e hm)) =
        .finite s' m' e hm' := by
  have hbias : (Format.binary64.exponentBias : Int) = 1023 := rfl
  have hbits : ((Format.binary64.mantissaBitsWithoutImplicit : Nat) : Int) = 52 := rfl
  have hpow : 2 ^ Format.binary64.exponentBits = 2048 := rfl
  have hfull : m.log2 + 1 = Format.binary64.mantissaBits := by rw [hlog]; rfl
  have hsmall : ¬ 2048 ≤ (e + 1023 + 52).toNat + 1 := by omega
  have hnat : (BitVec.ofNat Format.binary64.exponentBits (e + 1023 + 52).toNat).toNat =
      (e + 1023 + 52).toNat := by
    rw [BitVec.toNat_ofNat, hpow]
    exact Nat.mod_eq_of_lt (by omega)
  have hall : BitVec.ofNat Format.binary64.exponentBits (e + 1023 + 52).toNat ≠ -1#_ := by
    intro h
    have htoNat : (e + 1023 + 52).toNat = 2047 := by rw [← hnat, h]; rfl
    omega
  have hnone : BitVec.ofNat Format.binary64.exponentBits (e + 1023 + 52).toNat ≠ 0#_ := by
    intro h
    have htoNat : (e + 1023 + 52).toNat = 0 := by rw [← hnat, h]; rfl
    omega
  rw [UnpackedFloat.pack, UnpackedFloat.unpack]
  simp only [hbias, hbits, hpow, hsmall, if_false, hfull, if_true, unpackExponent_packComponents,
    unpackMantissa_packComponents, hall, hnone, hnat]
  have hexponent : ((e + 1023 + 52).toNat : Int) - (1023 + 52) = e := by omega
  simp only [hexponent]
  have hlt : (1#1 ++ BitVec.ofNat 52 m).toNat < 2 ^ 53 := BitVec.isLt _
  have hle : 2 ^ 52 ≤ (1#1 ++ BitVec.ofNat 52 m).toNat := by
    rw [BitVec.toNat_append]
    exact Nat.left_le_or
  have hpos : 0 < (1#1 ++ BitVec.ofNat 52 m).toNat := (Nat.two_pow_pos 52).trans_le hle
  exact ⟨_, _, hpos, (Nat.log2_eq_iff hpos.ne').mpr ⟨hle, hlt⟩, rfl⟩

/-! ### Rounding -/

theorem mantissa_shiftRight (em : ExtendedMantissa) (n : Nat) :
    (em >>> n).mantissa = em.mantissa / 2 ^ n := by
  change (n.repeat ExtendedMantissa.shiftRightOne em).mantissa = _
  induction n with
  | zero => simp [Nat.repeat]
  | succ n ih =>
    rw [Nat.repeat, ExtendedMantissa.shiftRightOne, ih, Nat.div_div_eq_div_mul, Nat.pow_succ]

theorem roundedMantissa_le (em : ExtendedMantissa) : em.roundedMantissa ≤ em.mantissa + 1 := by
  rw [ExtendedMantissa.roundedMantissa, Accuracy.roundToNearestEven.eq_def]
  split <;> omega

theorem mantissa_ofMantissaAndAccuracy (m : Nat) (a : Accuracy) :
    (ExtendedMantissa.ofMantissaAndAccuracy m a).mantissa = m := by
  rw [ExtendedMantissa.ofMantissaAndAccuracy.eq_def]
  split <;> rfl

def shifted (m : Nat) (e : Int) : Int := max e (max (m.log2 + e - 52) (-1074))

theorem shiftToTargetExponent_eq (m : Nat) (e : Int) (a : Accuracy) :
    (shiftToTargetExponent .binary64 m e a).2 = shifted m e ∧
      (shiftToTargetExponent .binary64 m e a).1.mantissa = m / 2 ^ (shifted m e - e).toNat := by
  have htarget : Format.binary64.targetExponent (totalExponent m e) =
      max (m.log2 + e - 52) (-1074) := by
    have hmin : Format.binary64.minExponent = -1074 := rfl
    have hbits : ((Format.binary64.mantissaBits : Nat) : Int) = 53 := rfl
    rw [Format.targetExponent, totalExponent, hmin, hbits]
    congr 1
    omega
  have hshift : (max (m.log2 + e - 52) (-1074) - e).toNat = (shifted m e - e).toNat := by
    rw [shifted]
    omega
  rw [shiftToTargetExponent, shiftToExponent, htarget]
  refine ⟨?_, ?_⟩
  · simp only [shifted]
    omega
  · simp only [mantissa_shiftRight, mantissa_ofMantissaAndAccuracy, hshift]

/-- Dividing by a power of two and rounding up adds at most one bit to what is left. -/
theorem log2_le_of_le_div {m r d : Nat} (h : r ≤ m / 2 ^ d + 1) : r.log2 ≤ m.log2 + 1 - d := by
  rcases Nat.eq_zero_or_pos r with rfl | hr
  · rw [Nat.log2_zero]
    exact Nat.zero_le _
  have hm : m < 2 ^ (m.log2 + 1) := Nat.lt_log2_self
  have hdiv : m / 2 ^ d < 2 ^ (m.log2 + 1 - d) := by
    rw [Nat.div_lt_iff_lt_mul (Nat.two_pow_pos d), ← Nat.pow_add]
    exact hm.trans_le (Nat.pow_le_pow_right two_pos (by omega))
  have hlt : r < 2 ^ (m.log2 + 1 - d + 1) := by
    have hpos : 1 ≤ 2 ^ (m.log2 + 1 - d) := Nat.one_le_two_pow
    rw [Nat.pow_succ]
    omega
  exact Nat.lt_succ_iff.mp ((Nat.log2_lt hr.ne').mpr hlt)

/-- Rounding a magnitude below `2 ^ 1023` does not overflow. -/
theorem fits_round {m : Nat} {e : Int} (he : e ≤ 971) (hm : m.log2 + e ≤ 1022) (s : Sign)
    (a : Accuracy) : Fits (roundWithAccuracy .binary64 s m e a) := by
  obtain ⟨hexponent, hmantissa⟩ := shiftToTargetExponent_eq m e a
  have hrounded := roundedMantissa_le (shiftToTargetExponent .binary64 m e a).1
  rw [hmantissa] at hrounded
  rw [roundWithAccuracy]
  simp only [hexponent]
  generalize (shiftToTargetExponent .binary64 m e a).1.roundedMantissa = r at hrounded ⊢
  have hlog : r.log2 ≤ m.log2 + 1 - (shifted m e - e).toNat := log2_le_of_le_div hrounded
  split
  · trivial
  · change (shiftToTargetExponent .binary64 r (shifted m e) .exact).2 ≤ 971
    rw [(shiftToTargetExponent_eq r (shifted m e) .exact).1]
    simp only [shifted] at hlog ⊢
    omega

theorem log2_add_log2_le {q m n k : Nat} (hq : 0 < q) (hm : 0 < m) (h : q * m ≤ n <<< k) :
    q.log2 + m.log2 ≤ n.log2 + k := by
  have hlow : 2 ^ (q.log2 + m.log2) ≤ q * m := by
    rw [Nat.pow_add]
    exact Nat.mul_le_mul (Nat.log2_self_le hq.ne') (Nat.log2_self_le hm.ne')
  have hhigh : n <<< k < 2 ^ (n.log2 + 1 + k) := by
    rw [Nat.shiftLeft_eq, Nat.pow_add]
    exact Nat.mul_lt_mul_of_pos_right Nat.lt_log2_self (Nat.two_pow_pos k)
  have hpow : 2 ^ (q.log2 + m.log2) < 2 ^ (n.log2 + 1 + k) := (hlow.trans h).trans_lt hhigh
  have hlt := (Nat.pow_lt_pow_iff_right one_lt_two).mp hpow
  omega

theorem log2_eq_of_div {m : Nat} (h : 52 ≤ m.log2) : (m / 2 ^ (m.log2 - 52)).log2 = 52 := by
  have hm : m ≠ 0 := by
    rintro rfl
    rw [Nat.log2_zero] at h
    omega
  have hlow : 2 ^ 52 ≤ m / 2 ^ (m.log2 - 52) := by
    rw [Nat.le_div_iff_mul_le (Nat.two_pow_pos _), ← Nat.pow_add]
    exact (Nat.pow_le_pow_right two_pos (by omega)).trans (Nat.log2_self_le hm)
  have hhigh : m / 2 ^ (m.log2 - 52) < 2 ^ 53 := by
    rw [Nat.div_lt_iff_lt_mul (Nat.two_pow_pos _), ← Nat.pow_add]
    exact Nat.lt_log2_self.trans_le (Nat.pow_le_pow_right two_pos (by omega))
  exact (Nat.log2_eq_iff (by omega)).mpr ⟨hlow, hhigh⟩

theorem le_roundedMantissa (em : ExtendedMantissa) : em.mantissa ≤ em.roundedMantissa := by
  rw [ExtendedMantissa.roundedMantissa, Accuracy.roundToNearestEven.eq_def]
  split <;> omega

/-- Rounding a magnitude that is not tiny keeps its size. -/
theorem exists_round {m : Nat} {e : Int} (hm : 52 ≤ m.log2) (he : -1074 ≤ m.log2 + e - 52)
    (s : Sign) (a : Accuracy) :
    ∃ m' e', ∃ hm' : 0 < m', roundWithAccuracy .binary64 s m e a = .finite s m' e' hm' ∧
      m'.log2 = 52 ∧ m.log2 + e - 52 ≤ e' := by
  have hshift : shifted m e = m.log2 + e - 52 := by
    rw [shifted]
    omega
  have hfirst : (shifted m e - e).toNat = m.log2 - 52 := by omega
  obtain ⟨hexponent, hmantissa⟩ := shiftToTargetExponent_eq m e a
  have hrounded := le_roundedMantissa (shiftToTargetExponent .binary64 m e a).1
  rw [hmantissa, hfirst] at hrounded
  rw [roundWithAccuracy]
  simp only [hexponent]
  generalize (shiftToTargetExponent .binary64 m e a).1.roundedMantissa = r at hrounded ⊢
  have hlog : 52 ≤ r.log2 := by
    have hquotient := log2_eq_of_div hm
    generalize m / 2 ^ (m.log2 - 52) = q at hquotient hrounded
    have hpos : q ≠ 0 := by
      rintro rfl
      rw [Nat.log2_zero] at hquotient
      omega
    have hlow : 2 ^ 52 ≤ q := ((Nat.log2_eq_iff hpos).mp hquotient).1
    rw [Nat.le_log2 (by omega)]
    exact hlow.trans hrounded
  have hshift' : shifted r (shifted m e) = r.log2 + shifted m e - 52 := by
    rw [shifted]
    omega
  have hsecond : (shifted r (shifted m e) - shifted m e).toNat = r.log2 - 52 := by omega
  obtain ⟨hexponent', hmantissa'⟩ := shiftToTargetExponent_eq r (shifted m e) .exact
  rw [hsecond] at hmantissa'
  have hlog' := log2_eq_of_div hlog
  rw [← hmantissa'] at hlog'
  split
  case isTrue hzero =>
    rw [hzero, Nat.log2_zero] at hlog'
    omega
  case isFalse hpos =>
    refine ⟨_, _, Nat.pos_of_ne_zero hpos, rfl, hlog', ?_⟩
    rw [hexponent']
    omega

/-- A quotient does not overflow when its divisor is at least two. -/
theorem fits_div {m₁ m₂ : Nat} {e₁ e₂ : Int} (h₁ : 0 < m₁) (h₂ : 0 < m₂) (s₁ s₂ : Sign)
    (hm : m₁ < 2 ^ 53) (he : e₁ ≤ 971) (htwo : 2 ≤ totalExponent m₂ e₂) :
    Fits (UnpackedFloat.div .binary64 (.finite s₁ m₁ e₁ h₁) (.finite s₂ m₂ e₂ h₂)) := by
  have hlog : m₁.log2 ≤ 52 := Nat.lt_succ_iff.mp ((Nat.log2_lt h₁.ne').mpr hm)
  rw [totalExponent] at htwo
  have htarget : Format.binary64.targetExponent (totalExponent m₁ e₁ - totalExponent m₂ e₂) =
      max (m₁.log2 + e₁ - (m₂.log2 + e₂) - 53) (-1074) := by
    have hmin : Format.binary64.minExponent = -1074 := rfl
    have hbits : ((Format.binary64.mantissaBits : Nat) : Int) = 53 := rfl
    rw [Format.targetExponent, totalExponent, totalExponent, hmin, hbits]
    congr 1
    omega
  rw [UnpackedFloat.div, divCore]
  simp only [htarget]
  generalize ht : min (e₁ - e₂) (max (m₁.log2 + e₁ - (m₂.log2 + e₂) - 53) (-1074)) = t
  generalize hq : (m₁ <<< (e₁ - e₂ - t).toNat) / m₂ = q
  refine fits_round (by omega) ?_ _ _
  rcases Nat.eq_zero_or_pos q with rfl | hpos
  · rw [Nat.log2_zero]
    omega
  · have hquotient : q.log2 + m₂.log2 ≤ m₁.log2 + (e₁ - e₂ - t).toNat :=
      log2_add_log2_le hpos h₂ (by rw [← hq]; exact Nat.div_mul_le_self _ _)
    omega

/-- What is left of a conversion of 64 bits has a small exponent. -/
theorem fits_ofNat {n : Nat} (hn : n < 2 ^ 64) : Fits (UnpackedFloat.ofNat .binary64 n) := by
  rw [UnpackedFloat.ofNat, UnpackedFloat.ofInt, UnpackedFloat.normalize]
  rcases Nat.eq_zero_or_pos n with rfl | hpos
  · trivial
  · have hlog : n.log2 < 64 := (Nat.log2_lt hpos.ne').mpr hn
    rw [Int.compare_eq_gt.mpr (by omega)]
    simp only [Int.toNat_natCast, UnpackedFloat.round, decreaseExponent]
    generalize (0 - Format.binary64.targetExponent (totalExponent n 0)).toNat = k
    have hshifted : (n <<< k).log2 + Nat.log2 1 ≤ n.log2 + k :=
      log2_add_log2_le (Nat.shiftLeft_pos_iff.mpr hpos) one_pos (Nat.mul_one _).le
    exact fits_round (by omega) (by omega) _ _

/-! ### Doubles -/

theorem isFinite_ofModel_pack {u : UnpackedFloat} (h : Fits u) :
    (Float.ofModel (.pack u)).isFinite = true := isFinite_pack h

theorem isFinite_toFloat (n : UInt64) : n.toFloat.isFinite = true :=
  isFinite_ofModel_pack (fits_ofNat n.toNat_lt)

/-- An unpacked finite double is zero or has a small exponent. -/
theorem fits_of_isFinite {x : Float} (h : x.isFinite = true) :
    (∃ s, x.toModel.unpack = .zero s) ∨
      ∃ s m e, ∃ hm : 0 < m, x.toModel.unpack = .finite s m e hm ∧ m < 2 ^ 53 ∧ e ≤ 971 := by
  have hx : x.toModel.unpack.isFinite = true := h
  cases hu : x.toModel.unpack with
  | zero s => exact .inl ⟨s, rfl⟩
  | finite s m e hm => exact .inr ⟨s, m, e, hm, rfl, unpack_bounds hu⟩
  | infinity s => rw [hu] at hx; cases hx
  | notANumber => rw [hu] at hx; cases hx

theorem isFinite_neg {x : Float} (h : x.isFinite = true) : (-x).isFinite = true := by
  refine isFinite_ofModel_pack ?_
  obtain ⟨s, hs⟩ | ⟨s, m, e, hm, hu, _, he⟩ := fits_of_isFinite h
  · rw [hs]
    trivial
  · rw [hu]
    exact he

def isLarge (x : Float) : Bool :=
  match x.toModel.unpack with
  | .finite _ m e _ => 2 ≤ totalExponent m e
  | _ => false

/-- A quotient by a double of at least two is finite. -/
theorem isFinite_div {x y : Float} (hx : x.isFinite = true) (hy : isLarge y = true) :
    (x / y).isFinite = true := by
  refine isFinite_ofModel_pack ?_
  rw [isLarge] at hy
  split at hy
  case h_2 => cases hy
  case h_1 s m e hm hu =>
    rw [hu]
    obtain ⟨s', hs⟩ | ⟨s', m', e', hm', hu', hlt, he⟩ := fits_of_isFinite hx
    · rw [hs]
      trivial
    · rw [hu']
      exact fits_div hm' hm s' s hlt he (of_decide_eq_true hy)

theorem isFinite_of_isLarge {x : Float} (h : isLarge x = true) : x.isFinite = true := by
  rw [isLarge] at h
  split at h
  case h_2 => cases h
  case h_1 s m e hm hu =>
    change x.toModel.unpack.isFinite = true
    rw [hu]
    rfl

/-- A product is finite unless it is infinite. -/
theorem isFinite_mul {x y : Float} (hx : x.isFinite = true) (hy : y.isFinite = true)
    (h : (x * y).isInf = false) : (x * y).isFinite = true := by
  have hnumber : UnpackedFloat.mul .binary64 x.toModel.unpack y.toModel.unpack ≠ .notANumber := by
    obtain ⟨s, hs⟩ | ⟨s, m, e, hm, hs, _⟩ := fits_of_isFinite hx <;>
    obtain ⟨s', hs'⟩ | ⟨s', m', e', hm', hs', _⟩ := fits_of_isFinite hy <;>
    rw [hs, hs']
    · nofun
    · nofun
    · nofun
    · rw [UnpackedFloat.mul, roundWithAccuracy]
      simp only
      split <;> nofun
  rcases isFinite_or_isInf_pack hnumber with hfinite | hinf
  · exact hfinite
  · have hinf' : (x * y).isInf = true := hinf
    rw [h] at hinf'
    cases hinf'

end Milp.Double

namespace Milp.Decimal

open Float.Model Float.Model.UnpackedFloat Double

theorem isLarge_tabled : ∀ n < 23, 0 < n → isLarge (powerOfTen n) = true := by decide +kernel

theorem isLarge_last : isLarge (powerOfTen 308) = true := by decide +kernel

theorem log2_pow_ten {n : Nat} (h : 0 < n) (hn : n ≤ 307) :
    3 ≤ (10 ^ n).log2 ∧ (10 ^ n).log2 < 1023 := by
  have hpos : 10 ^ n ≠ 0 := by positivity
  have hlow : 10 ^ 1 ≤ 10 ^ n := Nat.pow_le_pow_right (by norm_num) h
  have hhigh : 10 ^ n ≤ 10 ^ 307 := by
    apply Nat.pow_le_pow_right
    · norm_num
    · exact hn
  rw [Nat.le_log2 hpos, Nat.log2_lt hpos]
  exact ⟨(by norm_num : 2 ^ 3 ≤ 10 ^ 1).trans hlow, hhigh.trans_lt (by decide +kernel)⟩

/-- Powers of ten between the tabled ones and the last one are rounded without overflow. -/
theorem isLarge_middle {n : Nat} (h : 23 ≤ n) (hn : n ≤ 307) : isLarge (powerOfTen n) = true := by
  have hslow : powerOfTen n = .ofModel (.pack (UnpackedFloat.ofScientific .binary64 1 n)) := by
    rw [powerOfTen, Float.ofScientific, dif_neg (by omega)]
    rfl
  have hpow : (2 : Int) ^ Format.binary64.exponentBits = 2048 := rfl
  have hround : UnpackedFloat.ofScientific .binary64 1 n =
      roundWithAccuracy .binary64 .positive (1 <<< 53 * 10 ^ n) (-53) .exact := by
    rw [UnpackedFloat.ofScientific, dif_neg one_ne_zero, if_neg (by omega), if_neg (by omega),
      if_pos (by omega)]
    rfl
  obtain ⟨hten, hten'⟩ := log2_pow_ten (by omega) hn
  have hlow : (1 <<< 53).log2 + (10 ^ n).log2 ≤ (1 <<< 53 * 10 ^ n).log2 + 0 :=
    log2_add_log2_le (by norm_num) (by positivity) le_rfl
  have hhigh : (1 <<< 53 * 10 ^ n).log2 + Nat.log2 1 ≤ (10 ^ n).log2 + 53 :=
    log2_add_log2_le (Nat.mul_pos (by norm_num) (by positivity)) one_pos
      (by simp [Nat.shiftLeft_eq, Nat.mul_comm])
  have hone : (1 <<< 53).log2 = 53 := by decide
  generalize 1 <<< 53 * 10 ^ n = k at hround hlow hhigh
  obtain ⟨m, e, hm, hresult, hfull, hle⟩ := exists_round (m := k) (e := -53) (by omega) (by omega)
    .positive .exact
  have hfits : Fits (roundWithAccuracy .binary64 .positive k (-53) .exact) :=
    fits_round (by omega) (by omega) _ _
  rw [hresult] at hfits
  obtain ⟨s', m', hm', hfull', hunpack⟩ :=
    exists_unpack_pack .positive hm hfull (by omega) hfits
  have hvalue : (powerOfTen n).toModel.unpack = .finite s' m' e hm' := by
    rw [hslow, hround, hresult, ← hunpack]
    rfl
  rw [isLarge, hvalue]
  simp only [decide_eq_true_eq, totalExponent, hfull']
  omega

theorem isLarge_powerOfTen {n : Nat} (h : 0 < n) (hn : n ≤ 308) :
    isLarge (powerOfTen n) = true := by
  rcases Nat.lt_or_ge n 23 with hsmall | hbig
  · exact isLarge_tabled n hsmall h
  · rcases Nat.lt_or_ge n 308 with hmiddle | hlast
    · exact isLarge_middle hbig (by omega)
    · rw [show n = 308 by omega]
      exact isLarge_last

/-- The power by which a literal is scaled is finite. -/
theorem isFinite_powerOfTen {n : Nat} (hn : n ≤ 308) : (powerOfTen n).isFinite = true := by
  rcases Nat.eq_zero_or_pos n with rfl | hpos
  · decide +kernel
  · exact isFinite_of_isLarge (isLarge_powerOfTen hpos hn)

/-- Scaling a finite double by a power of ten gives a finite one, or nothing. -/
theorem isFinite_scale {x y : Float} {exponent : Int} {fuel : Nat} (hx : x.isFinite = true)
    (h : scale x exponent fuel = some y) : y.isFinite = true := by
  induction fuel generalizing x exponent with
  | zero =>
    cases h
    exact hx
  | succ fuel ih =>
    rw [scale] at h
    split at h
    case isTrue hsmall =>
      split at h
      case isTrue hup =>
        dsimp only at h
        split at h
        case isTrue => cases h
        case isFalse hinf =>
          cases h
          exact isFinite_mul hx (isFinite_powerOfTen (by omega)) (by simpa using hinf)
      case isFalse hdown =>
        cases h
        exact isFinite_div hx (isLarge_powerOfTen (by omega) hsmall)
    case isFalse =>
      split at h
      case isTrue =>
        cases h
        exact hx
      case isFalse =>
        split at h
        case isTrue => cases h
        case isFalse => exact ih (isFinite_div hx isLarge_last) h

/-- What a literal of a document stands for is finite. -/
theorem Literal.isFinite_scaled {l : Literal} {x : Float} (h : l.scaled = some x) :
    x.isFinite = true := by
  have hsign {y : Float} (hy : y.isFinite = true) :
      (if l.negative then -y else y).isFinite = true := by
    split
    · exact isFinite_neg hy
    · exact hy
  rw [Literal.scaled] at h
  obtain ⟨y, hy, rfl⟩ := Option.map_eq_some_iff.mp h
  refine hsign ?_
  split at hy
  · cases hy
    decide +kernel
  · exact isFinite_scale (isFinite_toFloat _) hy

end Milp.Decimal
