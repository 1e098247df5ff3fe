import Mathlib
import Milp.Decimal.Shortest
import Milp.Proofs.Decimal.Exact

/-! Rounding intervals and the shortest digits. The intervals of different doubles have no number in
common, and the digits that are found for a double denote a number in its interval: the grid of
seventeen digits always has one. -/
namespace Milp

namespace Dyadic

def magnitude (d : Dyadic) : ℚ := d.significand * 2 ^ d.exponent

/-- How far the rounding interval reaches down, in quarters of a unit of the significand. -/
def below (d : Dyadic) : Nat := if d.significand = 2 ^ 52 ∧ -1074 < d.exponent then 1 else 2

def low (d : Dyadic) : ℚ := (d.significand - d.below / 4) * 2 ^ d.exponent

def high (d : Dyadic) : ℚ := (d.significand + 1 / 2) * 2 ^ d.exponent

/-- Whether a number rounds to the absolute value of a double. A tie goes to an even significand. -/
structure Rounds (d : Dyadic) (q : ℚ) : Prop where
  low : d.low ≤ q
  high : q ≤ d.high
  tie : q = d.low ∨ q = d.high → d.significand % 2 = 0

variable {d d' : Dyadic} {q : ℚ}

theorem below_le_two (d : Dyadic) : d.below ≤ 2 := by
  rw [below]
  split <;> omega

theorem low_lt_magnitude (d : Dyadic) : d.low < d.magnitude := by
  have hbelow : (0 : ℚ) < d.below := by
    rw [below]
    split <;> norm_num
  rw [low, magnitude]
  exact mul_lt_mul_of_pos_right (by linarith) (by positivity)

theorem magnitude_lt_high (d : Dyadic) : d.magnitude < d.high := by
  rw [high, magnitude]
  exact mul_lt_mul_of_pos_right (by linarith) (by positivity)

/-- The interval is wider than a unit in the seventeenth digit. -/
theorem Legal.div_lt_width (hd : d.Legal) : d.magnitude / 10 ^ 16 < d.high - d.low := by
  have hp : (0 : ℚ) < 2 ^ d.exponent := by positivity
  have hwidth : d.high - d.low = (1 / 2 + d.below / 4) * 2 ^ d.exponent := by
    rw [high, low]
    ring
  rw [hwidth, magnitude, mul_div_right_comm]
  refine mul_lt_mul_of_pos_right ?_ hp
  rw [below]
  split
  case isTrue hpower =>
    rw [hpower.1]
    norm_num
  case isFalse =>
    have hbits : (d.significand : ℚ) < 2 ^ 53 := by exact_mod_cast hd.bits
    rw [div_lt_iff₀ (by norm_num)]
    norm_num at hbits ⊢
    linarith

private theorem two_mul_zpow_le {e e' : ℤ} (h : e < e') : 2 * (2 : ℚ) ^ e ≤ 2 ^ e' := by
  rw [← zpow_one_add₀ two_ne_zero]
  exact zpow_le_zpow_right₀ one_le_two (by omega)

/-- With a larger exponent, the interval begins where the lower one ends or later. -/
private theorem Legal.high_le_low_of_exponent (hd : d.Legal) (hd' : d'.Legal)
    (h : d.exponent < d'.exponent) :
    d.high ≤ d'.low ∧ (d.significand % 2 = 0 → d.high < d'.low) := by
  have hp : (0 : ℚ) < 2 ^ d.exponent := by positivity
  have hp' : (0 : ℚ) < 2 ^ d'.exponent := by positivity
  have hfull : 2 ^ 52 ≤ d'.significand := hd'.full (hd.lowest.trans_lt h)
  -- Just above a power of two, the interval reaches half as far down.
  have hlow : (2 ^ 52 - 1 / 4 : ℚ) ≤ d'.significand - d'.below / 4 := by
    rw [below]
    split
    case isTrue hpower =>
      rw [hpower.1]
      norm_num
    case isFalse hpower =>
      have hlarge : 2 ^ 52 + 1 ≤ d'.significand :=
        Nat.lt_of_le_of_ne hfull fun he => hpower ⟨he.symm, hd.lowest.trans_lt h⟩
      have hcast : (2 ^ 52 + 1 : ℚ) ≤ d'.significand := by exact_mod_cast hlarge
      push_cast
      linarith
  have hlast : (2 ^ 53 - 1 / 2 : ℚ) * 2 ^ d.exponent ≤ d'.low := by
    calc (2 ^ 53 - 1 / 2 : ℚ) * 2 ^ d.exponent
        = (2 ^ 52 - 1 / 4) * (2 * 2 ^ d.exponent) := by ring
      _ ≤ (2 ^ 52 - 1 / 4) * 2 ^ d'.exponent :=
        mul_le_mul_of_nonneg_left (two_mul_zpow_le h) (by norm_num)
      _ ≤ d'.low := mul_le_mul_of_nonneg_right hlow hp'.le
  refine ⟨le_trans (mul_le_mul_of_nonneg_right ?_ hp.le) hlast, fun heven => ?_⟩
  · have hcast : (d.significand : ℚ) + 1 ≤ 2 ^ 53 := by exact_mod_cast hd.bits
    linarith
  · refine lt_of_lt_of_le (mul_lt_mul_of_pos_right ?_ hp) hlast
    have hbits := hd.bits
    have hsmall : d.significand + 2 ≤ 2 ^ 53 := by omega
    have hcast : (d.significand : ℚ) + 2 ≤ 2 ^ 53 := by exact_mod_cast hsmall
    linarith

/-- With a larger significand, the interval begins where the lower one ends or later. -/
private theorem high_le_low_of_significand (he : d.exponent = d'.exponent)
    (h : d.significand < d'.significand) :
    d.high ≤ d'.low ∧
      (d.significand % 2 = 0 → d'.significand % 2 = 0 → d.high < d'.low) := by
  have hp : (0 : ℚ) < 2 ^ d'.exponent := by positivity
  have hbelow : (d'.below : ℚ) ≤ 2 := by exact_mod_cast d'.below_le_two
  rw [high, low, he]
  refine ⟨mul_le_mul_of_nonneg_right ?_ hp.le, fun heven heven' => mul_lt_mul_of_pos_right ?_ hp⟩
  · have hcast : (d.significand : ℚ) + 1 ≤ d'.significand := by exact_mod_cast h
    linarith
  · have hlarge : d.significand + 2 ≤ d'.significand := by omega
    have hcast : (d.significand : ℚ) + 2 ≤ d'.significand := by exact_mod_cast hlarge
    linarith

/-- No number rounds to two absolute values. -/
private theorem Legal.not_rounds (hd : d.Legal) (hd' : d'.Legal)
    (h : d.exponent < d'.exponent ∨ d.exponent = d'.exponent ∧ d.significand < d'.significand)
    (hq : d.Rounds q) : ¬ d'.Rounds q := by
  intro hq'
  obtain ⟨hle, hlt⟩ : d.high ≤ d'.low ∧
      (d.significand % 2 = 0 → d'.significand % 2 = 0 → d.high < d'.low) := by
    rcases h with he | ⟨he, hm⟩
    · obtain ⟨hle, hlt⟩ := hd.high_le_low_of_exponent hd' he
      exact ⟨hle, fun heven _ => hlt heven⟩
    · exact high_le_low_of_significand he hm
  have hhigh : q = d.high := le_antisymm hq.high (hle.trans hq'.low)
  have hlow : q = d'.low := le_antisymm (hq.high.trans hle) hq'.low
  have hstrict := hlt (hq.tie (.inr hhigh)) (hq'.tie (.inl hlow))
  rw [← hhigh, ← hlow] at hstrict
  exact lt_irrefl q hstrict

/-- A number rounds to one absolute value only. -/
theorem Legal.eq_of_rounds (hd : d.Legal) (hd' : d'.Legal) (hq : d.Rounds q) (hq' : d'.Rounds q) :
    d.significand = d'.significand ∧ d.exponent = d'.exponent := by
  rcases lt_trichotomy d.exponent d'.exponent with he | he | he
  · exact absurd hq' (hd.not_rounds hd' (.inl he) hq)
  · rcases lt_trichotomy d.significand d'.significand with hm | hm | hm
    · exact absurd hq' (hd.not_rounds hd' (.inr ⟨he, hm⟩) hq)
    · exact ⟨hm, he⟩
    · exact absurd hq (hd'.not_rounds hd (.inr ⟨he.symm, hm⟩) hq')
  · exact absurd hq (hd'.not_rounds hd (.inl he) hq')

end Dyadic

/-- A power with a whole exponent as a quotient of two natural powers. -/
theorem zpow_mul_toNat {b : ℚ} (hb : b ≠ 0) (n : ℤ) : b ^ n * b ^ (-n).toNat = b ^ n.toNat := by
  rw [← zpow_natCast, ← zpow_natCast, ← zpow_add₀ hb]
  congr 1
  omega

namespace Decimal.Rounding

structure Describes (r : Rounding) (d : Dyadic) : Prop where
  unit : r.unit = 2 ^ r.unit.log2
  low : (r.low : ℚ) = d.low * r.unit
  value : (r.value : ℚ) = d.magnitude * r.unit
  high : (r.high : ℚ) = d.high * r.unit
  closed : r.closed = true ↔ d.significand % 2 = 0

theorem Describes.unit_pos {r : Rounding} {d : Dyadic} (hr : r.Describes d) : 0 < r.unit := by
  rw [hr.unit]
  positivity

theorem ofDyadic_describes {d : Dyadic} (h : d.significand ≠ 0) : (ofDyadic d).Describes d := by
  have hbelow : d.below ≤ 4 * d.significand := by
    have htwo := d.below_le_two
    omega
  have hup : (2 : ℚ) ^ (d.exponent - 2).toNat =
      2 ^ d.exponent / 4 * 2 ^ (-(d.exponent - 2)).toNat := by
    rw [← zpow_mul_toNat two_ne_zero, zpow_sub₀ two_ne_zero]
    norm_num
  have hlow : (ofDyadic d).low = (4 * d.significand - d.below) * 2 ^ (d.exponent - 2).toNat := rfl
  have hvalue : (ofDyadic d).value = 4 * d.significand * 2 ^ (d.exponent - 2).toNat := rfl
  have hhigh : (ofDyadic d).high = (4 * d.significand + 2) * 2 ^ (d.exponent - 2).toNat := rfl
  have hunit : (ofDyadic d).unit = 2 ^ (-(d.exponent - 2)).toNat := rfl
  refine ⟨?_, ?_, ?_, ?_, ?_⟩
  · rw [hunit, Nat.log2_two_pow]
  · rw [hlow, hunit, Dyadic.low]
    push_cast [hbelow]
    rw [hup]
    ring
  · rw [hvalue, hunit, Dyadic.magnitude]
    push_cast
    rw [hup]
    ring
  · rw [hhigh, hunit, Dyadic.high]
    push_cast
    rw [hup]
    ring
  · exact decide_eq_true_iff

def floor (r : Rounding) (scale : ℤ) : ℕ :=
  r.value * 10 ^ (-scale).toNat / (r.unit * 10 ^ scale.toNat)

/-- Whether a grid point is not before the interval. -/
def Begun (r : Rounding) (scale : ℤ) (n : ℕ) : Prop :=
  if r.closed then r.low * 10 ^ (-scale).toNat ≤ n * (r.unit * 10 ^ scale.toNat)
  else r.low * 10 ^ (-scale).toNat < n * (r.unit * 10 ^ scale.toNat)

/-- Whether a grid point is not past the interval. -/
def Unfinished (r : Rounding) (scale : ℤ) (n : ℕ) : Prop :=
  if r.closed then n * (r.unit * 10 ^ scale.toNat) ≤ r.high * 10 ^ (-scale).toNat
  else n * (r.unit * 10 ^ scale.toNat) < r.high * 10 ^ (-scale).toNat

instance (r : Rounding) (scale : ℤ) (n : ℕ) : Decidable (r.Begun scale n) :=
  inferInstanceAs (Decidable (if r.closed then _ ≤ _ else _ < _))

instance (r : Rounding) (scale : ℤ) (n : ℕ) : Decidable (r.Unfinished scale n) :=
  inferInstanceAs (Decidable (if r.closed then _ ≤ _ else _ < _))

/-- A grid has one of the two points around the value, if one of them is in the interval. -/
theorem onGrid_eq (r : Rounding) (tie : Tie) (scale : ℤ) :
    ∃ nearer, (nearer = r.floor scale ∨ nearer = r.floor scale + 1) ∧
      r.onGrid tie scale =
        if r.Begun scale (r.floor scale) ∧ r.Unfinished scale (r.floor scale + 1) then some nearer
        else if r.Begun scale (r.floor scale) then some (r.floor scale)
        else if r.Unfinished scale (r.floor scale + 1) then some (r.floor scale + 1)
        else none := by
  refine ⟨_, ?_, rfl⟩
  split
  · exact .inl rfl
  · split
    · exact .inr rfl
    · cases tie with
      | up => exact .inr rfl
      | even =>
        dsimp only
        split
        · exact .inl rfl
        · exact .inr rfl

theorem onGrid_eq_some {r : Rounding} {tie : Tie} {scale : ℤ} {n : ℕ}
    (h : r.onGrid tie scale = some n) :
    (n = r.floor scale ∧ r.Begun scale n) ∨ (n = r.floor scale + 1 ∧ r.Unfinished scale n) := by
  obtain ⟨nearer, hnearer, heq⟩ := r.onGrid_eq tie scale
  rw [heq] at h
  split at h
  case isTrue hboth =>
    cases h
    rcases hnearer with rfl | rfl
    · exact .inl ⟨rfl, hboth.1⟩
    · exact .inr ⟨rfl, hboth.2⟩
  case isFalse =>
    split at h
    case isTrue hbegun =>
      cases h
      exact .inl ⟨rfl, hbegun⟩
    case isFalse =>
      split at h
      case isTrue hunfinished =>
        cases h
        exact .inr ⟨rfl, hunfinished⟩
      case isFalse => cases h

theorem onGrid_eq_none {r : Rounding} {tie : Tie} {scale : ℤ} (h : r.onGrid tie scale = none) :
    ¬ r.Begun scale (r.floor scale) ∧ ¬ r.Unfinished scale (r.floor scale + 1) := by
  obtain ⟨nearer, -, heq⟩ := r.onGrid_eq tie scale
  rw [heq] at h
  split at h
  case isTrue => cases h
  case isFalse =>
    split at h
    case isTrue => cases h
    case isFalse hbegun =>
      split at h
      case isTrue => cases h
      case isFalse hunfinished => exact ⟨hbegun, hunfinished⟩

section

variable {r : Rounding} {d : Dyadic}

/-- The common factor of all numbers that are compared on a grid. -/
private def factor (r : Rounding) (scale : ℤ) : ℚ := r.unit * 10 ^ (-scale).toNat

private theorem factor_pos (hr : r.Describes d) (scale : ℤ) : 0 < r.factor scale := by
  have hunit : (0 : ℚ) < r.unit := by exact_mod_cast hr.unit_pos
  rw [factor]
  positivity

private theorem cast_point (r : Rounding) (scale : ℤ) (n : ℕ) :
    ((n * (r.unit * 10 ^ scale.toNat) : ℕ) : ℚ) = n * 10 ^ scale * r.factor scale := by
  push_cast
  rw [factor, ← zpow_mul_toNat (by norm_num : (10 : ℚ) ≠ 0) scale]
  ring

private theorem cast_bound {a : ℕ} {x : ℚ} (ha : (a : ℚ) = x * r.unit) (scale : ℤ) :
    ((a * 10 ^ (-scale).toNat : ℕ) : ℚ) = x * r.factor scale := by
  push_cast
  rw [ha, factor]
  ring

/-- End points belong to the interval of an even significand only. -/
private theorem closed_iff (hr : r.Describes d) {a b : ℕ} {x y f : ℚ} (hf : 0 < f)
    (ha : (a : ℚ) = x * f) (hb : (b : ℚ) = y * f) :
    (if r.closed then a ≤ b else a < b) ↔ x ≤ y ∧ (x = y → d.significand % 2 = 0) := by
  split
  case isTrue hclosed =>
    rw [← Nat.cast_le (α := ℚ), ha, hb, mul_le_mul_iff_left₀ hf]
    exact ⟨fun h => ⟨h, fun _ => hr.closed.mp hclosed⟩, fun h => h.1⟩
  case isFalse hopen =>
    rw [← Nat.cast_lt (α := ℚ), ha, hb, mul_lt_mul_iff_left₀ hf]
    constructor
    · exact fun h => ⟨h.le, fun he => absurd he h.ne⟩
    · exact fun h => lt_of_le_of_ne h.1 fun he => hopen (hr.closed.mpr (h.2 he))

theorem begun_iff (hr : r.Describes d) {scale : ℤ} {n : ℕ} :
    r.Begun scale n ↔
      d.low ≤ n * 10 ^ scale ∧ (d.low = n * 10 ^ scale → d.significand % 2 = 0) :=
  closed_iff hr (factor_pos hr scale) (cast_bound hr.low scale) (cast_point r scale n)

theorem unfinished_iff (hr : r.Describes d) {scale : ℤ} {n : ℕ} :
    r.Unfinished scale n ↔
      n * 10 ^ scale ≤ d.high ∧ (n * 10 ^ scale = d.high → d.significand % 2 = 0) :=
  closed_iff hr (factor_pos hr scale) (cast_point r scale n) (cast_bound hr.high scale)

/-- The value is between two neighbouring points of a grid. -/
theorem floor_le (hr : r.Describes d) (scale : ℤ) :
    (r.floor scale : ℚ) * 10 ^ scale ≤ d.magnitude ∧
      d.magnitude < (r.floor scale + 1 : ℕ) * 10 ^ scale := by
  have hfactor := factor_pos hr scale
  have hstep : 0 < r.unit * 10 ^ scale.toNat := Nat.mul_pos hr.unit_pos (by positivity)
  rw [← mul_le_mul_iff_left₀ hfactor, ← mul_lt_mul_iff_left₀ hfactor, ← cast_point, ← cast_point,
    ← cast_bound hr.value, Nat.cast_le, Nat.cast_lt, floor]
  exact ⟨Nat.div_mul_le_self _ _, Nat.lt_mul_of_div_lt (Nat.lt_succ_self _) hstep⟩

theorem reaches_iff (hr : r.Describes d) {k : ℤ} : r.reaches k = true ↔ 10 ^ k ≤ d.magnitude := by
  have hfactor := factor_pos hr k
  have hreaches : r.reaches k = decide (1 * (r.unit * 10 ^ k.toNat) ≤ r.value * 10 ^ (-k).toNat) := by
    rw [reaches, one_mul, mul_comm r.unit]
    rfl
  rw [hreaches, decide_eq_true_iff, ← Nat.cast_le (α := ℚ), cast_bound hr.value, cast_point,
    mul_le_mul_iff_left₀ hfactor, Nat.cast_one, one_mul]

/-- What a grid has for a double rounds to it. -/
theorem rounds_of_onGrid (hr : r.Describes d) {tie : Tie} {scale : ℤ} {n : ℕ}
    (h : r.onGrid tie scale = some n) : d.Rounds (n * 10 ^ scale) := by
  obtain ⟨hfloor, hceil⟩ := floor_le hr scale
  have hlow := d.low_lt_magnitude
  have hhigh := d.magnitude_lt_high
  obtain ⟨rfl, hbegun⟩ | ⟨rfl, hunfinished⟩ := onGrid_eq_some h
  · obtain ⟨hle, htie⟩ := (begun_iff hr).mp hbegun
    refine ⟨hle, hfloor.trans hhigh.le,
      fun hend => hend.elim (fun he => htie he.symm) fun he => ?_⟩
    exact absurd he (hfloor.trans_lt hhigh).ne
  · obtain ⟨hle, htie⟩ := (unfinished_iff hr).mp hunfinished
    refine ⟨(hlow.trans hceil).le, hle, fun hend => hend.elim (fun he => ?_) htie⟩
    exact absurd he (hlow.trans hceil).ne'

/-- A grid that is finer than the interval is wide has a point in it. -/
theorem onGrid_ne_none (hr : r.Describes d) {tie : Tie} {scale : ℤ}
    (h : (10 : ℚ) ^ scale < d.high - d.low) : r.onGrid tie scale ≠ none := by
  intro hnone
  obtain ⟨hbegun, hunfinished⟩ := onGrid_eq_none hnone
  rw [begun_iff hr] at hbegun
  rw [unfinished_iff hr] at hunfinished
  have hfloor : r.floor scale * 10 ^ scale ≤ d.low := by
    by_contra hlt
    exact hbegun ⟨(not_le.mp hlt).le, fun he => absurd he (not_le.mp hlt).ne⟩
  have hceil : d.high ≤ (r.floor scale + 1 : ℕ) * 10 ^ scale := by
    by_contra hlt
    exact hunfinished ⟨(not_le.mp hlt).le, fun he => absurd he (not_le.mp hlt).ne⟩
  rw [Nat.cast_succ, add_one_mul] at hceil
  linarith

end

end Decimal.Rounding

end Milp
