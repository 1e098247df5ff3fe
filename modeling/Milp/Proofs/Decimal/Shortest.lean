import Milp.Proofs.Decimal.Rounding
import Milp.Proofs.Decimal.Text

/-! The shortest digits of a double denote a number in its rounding interval. The search begins with
the leading digit, whose place is estimated from the binary length and is never too high, so that the
last of the seventeen grids is finer than the interval is wide. -/
namespace Milp

namespace Dyadic

variable {d : Dyadic}

theorem Legal.two_zpow_le_magnitude (hd : d.Legal) (h : d.significand ≠ 0) :
    (2 : ℚ) ^ (-1074 : ℤ) ≤ d.magnitude := by
  have hone : (1 : ℚ) ≤ d.significand := by exact_mod_cast Nat.one_le_iff_ne_zero.mpr h
  calc (2 : ℚ) ^ (-1074 : ℤ) ≤ 2 ^ d.exponent := zpow_le_zpow_right₀ one_le_two hd.lowest
    _ ≤ d.magnitude := le_mul_of_one_le_left (by positivity) hone

theorem Legal.magnitude_lt_two_zpow (hd : d.Legal) : d.magnitude < (2 : ℚ) ^ (1024 : ℤ) := by
  have hbits : (d.significand : ℚ) < 2 ^ (53 : ℤ) := by exact_mod_cast hd.bits
  calc d.magnitude < 2 ^ (53 : ℤ) * 2 ^ d.exponent := mul_lt_mul_of_pos_right hbits (by positivity)
    _ = 2 ^ (53 + d.exponent) := (zpow_add₀ two_ne_zero _ _).symm
    _ ≤ 2 ^ (1024 : ℤ) := zpow_le_zpow_right₀ one_le_two (by linarith [hd.highest])

end Dyadic

namespace Decimal

/-- Powers of ten and of two are compared by a fraction near the logarithm. -/
private theorem ten_zpow_le {p q : ℕ} (hp : p ≠ 0) {n k : ℤ}
    (hbase : ((10 : ℚ) ^ p) ^ n ≤ (2 ^ q) ^ n) (h : q * n ≤ p * k) : (10 : ℚ) ^ n ≤ 2 ^ k := by
  rw [← pow_le_pow_iff_left₀ (by positivity) (by positivity) hp]
  calc ((10 : ℚ) ^ n) ^ p = (10 ^ p) ^ n := by rw [← zpow_natCast, ← zpow_natCast, zpow_comm]
    _ ≤ (2 ^ q) ^ n := hbase
    _ = 2 ^ (q * n) := by rw [zpow_mul, zpow_natCast]
    _ ≤ 2 ^ (p * k) := zpow_le_zpow_right₀ one_le_two h
    _ = (2 ^ k) ^ p := by rw [mul_comm, zpow_mul, zpow_natCast]

/-- One less than the estimate of a decimal exponent is not too large. -/
theorem ten_zpow_le_two_zpow {n k : ℤ} (hlow : -1100 ≤ k) (hhigh : k ≤ 1100)
    (h : n + 1 ≤ k * 30103 / 100000) : (10 : ℚ) ^ n ≤ 2 ^ k := by
  rcases le_total 0 n with hn | hn
  · refine ten_zpow_le (p := 31) (q := 103) (by decide) ?_ (by omega)
    exact zpow_le_zpow_left₀ hn (by positivity) (by norm_num)
  · refine ten_zpow_le (p := 16) (q := 53) (by decide) ?_ (by omega)
    obtain ⟨m, rfl⟩ : ∃ m : ℕ, n = -m := ⟨n.natAbs, by omega⟩
    rw [zpow_neg, zpow_neg, zpow_natCast, zpow_natCast]
    exact inv_anti₀ (by positivity) (pow_le_pow_left₀ (by positivity) (by norm_num) m)

namespace Rounding

variable {r : Rounding} {d : Dyadic}

/-- The value against the power of two that its binary length gives. -/
theorem two_zpow_le (hr : r.Describes d) (hvalue : r.value ≠ 0) :
    (2 : ℚ) ^ (r.value.log2 - r.unit.log2 : ℤ) ≤ d.magnitude ∧
      d.magnitude < 2 ^ (r.value.log2 - r.unit.log2 + 1 : ℤ) := by
  have hunit : (r.unit : ℚ) = 2 ^ (r.unit.log2 : ℤ) := by
    rw [zpow_natCast]
    exact_mod_cast hr.unit
  have hmagnitude : d.magnitude = r.value / 2 ^ (r.unit.log2 : ℤ) := by
    rw [hr.value, hunit, mul_div_cancel_right₀ _ (by positivity)]
  have hlow : (2 : ℚ) ^ (r.value.log2 : ℤ) ≤ r.value := by
    rw [zpow_natCast]
    exact_mod_cast Nat.log2_self_le hvalue
  have hhigh : (r.value : ℚ) < 2 ^ (r.value.log2 + 1 : ℤ) := by
    exact_mod_cast Nat.lt_log2_self
  rw [hmagnitude, sub_add_eq_add_sub, zpow_sub₀ two_ne_zero, zpow_sub₀ two_ne_zero]
  exact ⟨by gcongr, by gcongr⟩

/-- The leading digit is not above the value. -/
theorem ten_zpow_leading_le (hr : r.Describes d) (hd : d.Legal) (h : d.significand ≠ 0) :
    (10 : ℚ) ^ r.leading ≤ d.magnitude := by
  have hvalue : r.value ≠ 0 := by
    have hpos : 0 < d.magnitude := lt_of_lt_of_le (by positivity) (hd.two_zpow_le_magnitude h)
    have hunit : (0 : ℚ) < r.unit := by exact_mod_cast hr.unit_pos
    have hcast : (0 : ℚ) < r.value := hr.value ▸ mul_pos hpos hunit
    exact_mod_cast hcast.ne'
  obtain ⟨hle, hlt⟩ := two_zpow_le hr hvalue
  rw [leading]
  generalize (r.value.log2 - r.unit.log2 : ℤ) = k at hle hlt ⊢
  split
  case isTrue hreaches => exact (reaches_iff hr).mp hreaches
  case isFalse =>
    split
    case isTrue hreaches => exact (reaches_iff hr).mp hreaches
    case isFalse =>
      have hlow : -1074 < k + 1 := (zpow_lt_zpow_iff_right₀ one_lt_two).mp
        ((hd.two_zpow_le_magnitude h).trans_lt hlt)
      have hhigh : k < 1024 := (zpow_lt_zpow_iff_right₀ one_lt_two).mp
        (hle.trans_lt hd.magnitude_lt_two_zpow)
      exact (ten_zpow_le_two_zpow (by omega) (by omega) (by omega)).trans hle

/-- Seventeen digits are enough. -/
theorem onGrid_seventeen (hr : r.Describes d) (hd : d.Legal) (h : d.significand ≠ 0) (tie : Tie) :
    r.onGrid tie (r.leading - 16) ≠ none := by
  refine onGrid_ne_none hr (lt_of_le_of_lt ?_ hd.div_lt_width)
  rw [zpow_sub₀ (by norm_num)]
  exact div_le_div_of_nonneg_right (ten_zpow_leading_le hr hd h) (by positivity)

/-- A search finds a number that rounds to the double, if one of the grids that it tries has one. -/
theorem rounds_search (hr : r.Describes d) (tie : Tie) {n : ℕ} {scale : ℤ}
    (h : r.onGrid tie (scale - n) ≠ none) : d.Rounds (r.search tie scale (n + 1)).value := by
  induction n generalizing scale with
  | zero =>
    rw [Nat.cast_zero, sub_zero] at h
    obtain ⟨digits, hdigits⟩ := Option.ne_none_iff_exists'.mp h
    rw [search, hdigits]
    exact rounds_of_onGrid hr hdigits
  | succ n ih =>
    rw [search]
    split
    case h_1 digits hdigits => exact rounds_of_onGrid hr hdigits
    case h_2 =>
      refine ih ?_
      rwa [sub_sub, add_comm (1 : ℤ), ← Nat.cast_succ]

end Rounding

/-- Trailing zeros are moved, not dropped. -/
theorem Digits.value_trim (d : Digits) (n : ℕ) : (d.trim n).value = d.value := by
  induction n generalizing d with
  | zero => rfl
  | succ n ih =>
    rw [trim]
    split
    case isTrue hzero =>
      have hdigits : d.digits = 10 * (d.digits / 10) := by omega
      rw [ih, value, value, hdigits, Nat.mul_div_cancel_left _ (by decide), zpow_add_one₀ (by norm_num)]
      push_cast
      ring
    case isFalse => rfl

/-- The shortest digits of a double round to it. -/
theorem rounds_shortest (tie : Tie) {d : Dyadic} (hd : d.Legal) (h : d.significand ≠ 0) :
    d.Rounds (shortest tie d).value := by
  have hr := Rounding.ofDyadic_describes h
  rw [shortest, Digits.value_trim]
  exact Rounding.rounds_search hr tie (Rounding.onGrid_seventeen hr hd h tie)

end Decimal

end Milp
