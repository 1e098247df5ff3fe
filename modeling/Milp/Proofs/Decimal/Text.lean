import Mathlib
import Milp.Decimal.Layout

/-! Reading decimals back. Whatever layout the digits of a decimal are given, the text denotes the
value of the decimal, so that texts of different values differ. It begins with a digit and shows by a
point or an exponent that it is not an integer. -/
namespace Milp.Decimal

def Digits.value (d : Digits) : ℚ := d.digits * 10 ^ d.scale

def mantissaValue (cs : List Char) : ℚ :=
  let fraction := (cs.dropWhile (· ≠ '.')).tail
  Nat.ofDigitChars 10 (cs.takeWhile (· ≠ '.') ++ fraction) 0 * 10 ^ (-(fraction.length : ℤ))

def exponentValue : List Char → ℤ
  | '-' :: cs => -(Nat.ofDigitChars 10 cs 0)
  | '+' :: cs => Nat.ofDigitChars 10 cs 0
  | cs => Nat.ofDigitChars 10 cs 0

def textValue (cs : List Char) : ℚ :=
  mantissaValue (cs.takeWhile (· ≠ 'e')) * 10 ^ exponentValue (cs.dropWhile (· ≠ 'e')).tail

/-! ### Digits -/

def AllDigits (cs : List Char) : Prop := ∀ c ∈ cs, c.isDigit = true

theorem allDigits_digitChars (n : Nat) : AllDigits (digitChars n) := fun _ hc =>
  Nat.isDigit_of_mem_toDigits (by decide) (by decide) hc

theorem digitChars_ne_nil (n : Nat) : digitChars n ≠ [] := Nat.toDigits_ne_nil

theorem ofDigitChars_digitChars (n : Nat) : Nat.ofDigitChars 10 (digitChars n) 0 = n :=
  Nat.ofDigitChars_ten_toDigits

theorem allDigits_replicate (n : Nat) : AllDigits (List.replicate n '0') := by
  intro c hc
  rw [List.eq_of_mem_replicate hc]
  rfl

theorem AllDigits.append {cs ds : List Char} (hc : AllDigits cs) (hd : AllDigits ds) :
    AllDigits (cs ++ ds) := fun c h =>
  (List.mem_append.mp h).elim (hc c) (hd c)

theorem AllDigits.ne {cs : List Char} (h : AllDigits cs) {m : Char} (hm : m.isDigit = false) :
    ∀ c ∈ cs, decide (c ≠ m) = true := by
  intro c hc
  refine decide_eq_true ?_
  rintro rfl
  rw [h c hc] at hm
  cases hm

/-! ### Reading -/

theorem mantissaValue_digits {cs : List Char} (h : AllDigits cs) :
    mantissaValue cs = Nat.ofDigitChars 10 cs 0 := by
  have hpoint := h.ne (m := '.') rfl
  rw [mantissaValue, List.takeWhile_eq_self_iff.mpr hpoint, List.dropWhile_eq_nil_iff.mpr hpoint]
  simp

theorem mantissaValue_point {whole : List Char} (h : AllDigits whole) (fraction : List Char) :
    mantissaValue (whole ++ '.' :: fraction) =
      Nat.ofDigitChars 10 (whole ++ fraction) 0 * 10 ^ (-(fraction.length : ℤ)) := by
  have hpoint := h.ne (m := '.') rfl
  rw [mantissaValue, List.takeWhile_append_of_pos hpoint, List.dropWhile_append_of_pos hpoint]
  simp

theorem textValue_plain {cs : List Char} (h : ∀ c ∈ cs, c ≠ 'e') :
    textValue cs = mantissaValue cs := by
  have he : ∀ c ∈ cs, decide (c ≠ 'e') = true := fun c hc => decide_eq_true (h c hc)
  rw [textValue, List.takeWhile_eq_self_iff.mpr he, List.dropWhile_eq_nil_iff.mpr he]
  simp [exponentValue]

theorem textValue_exponent {mantissa : List Char} (h : ∀ c ∈ mantissa, c ≠ 'e')
    (exponent : List Char) :
    textValue (mantissa ++ 'e' :: exponent) =
      mantissaValue mantissa * 10 ^ exponentValue exponent := by
  have he : ∀ c ∈ mantissa, decide (c ≠ 'e') = true := fun c hc => decide_eq_true (h c hc)
  rw [textValue, List.takeWhile_append_of_pos he, List.dropWhile_append_of_pos he]
  simp

theorem exponentValue_digits {cs : List Char} (h : AllDigits cs) :
    exponentValue cs = Nat.ofDigitChars 10 cs 0 := by
  rw [exponentValue.eq_def]
  split
  · exact absurd (h '-' List.mem_cons_self) (by decide)
  · exact absurd (h '+' List.mem_cons_self) (by decide)
  · rfl

/-! ### Digits with a point -/

/-- A point moves the digits, and zeros on either side do not count. -/
theorem mantissaValue_pointed {cs : List Char} (h : AllDigits cs) (whole : ℤ) :
    mantissaValue (pointed cs whole) =
      Nat.ofDigitChars 10 cs 0 * 10 ^ (whole - cs.length : ℤ) := by
  rw [pointed]
  split
  case isTrue hsmall =>
    have hzero : AllDigits ['0'] := allDigits_replicate 1
    have hwhole := mantissaValue_point hzero (List.replicate (-whole).toNat '0' ++ cs)
    have hlength : (-((List.replicate (-whole).toNat '0' ++ cs).length : ℤ)) = whole - cs.length := by
      rw [List.length_append, List.length_replicate]
      omega
    have hvalue : Nat.ofDigitChars 10 (['0'] ++ (List.replicate (-whole).toNat '0' ++ cs)) 0 =
        Nat.ofDigitChars 10 cs 0 := by
      rw [Nat.ofDigitChars_append, Nat.ofDigitChars_append, Nat.ofDigitChars_replicate_zero]
      simp [Nat.ofDigitChars_cons]
    rw [hlength, hvalue] at hwhole
    simpa using hwhole
  case isFalse hlarge =>
    dsimp only
    split
    case isTrue hshort =>
      have hdigits := h.append (allDigits_replicate (whole.toNat - cs.length))
      have hwhole := mantissaValue_point hdigits ['0']
      have hvalue : Nat.ofDigitChars 10 (cs ++ List.replicate (whole.toNat - cs.length) '0' ++ ['0'])
          0 = 10 ^ (whole.toNat - cs.length + 1) * Nat.ofDigitChars 10 cs 0 := by
        rw [Nat.ofDigitChars_append, Nat.ofDigitChars_append, Nat.ofDigitChars_replicate_zero]
        simp [Nat.ofDigitChars_cons]
        ring
      have hexponent : (whole - cs.length : ℤ) = ((whole.toNat - cs.length + 1 : ℕ) : ℤ) - 1 := by
        omega
      rw [hvalue] at hwhole
      rw [hexponent, zpow_sub₀ (by norm_num), zpow_natCast]
      rw [show ['.', '0'] = '.' :: ['0'] from rfl, hwhole]
      push_cast
      simp
      ring
    case isFalse hlong =>
      have htake : AllDigits (cs.take whole.toNat) := fun c hc => h c (List.mem_of_mem_take hc)
      have hwhole := mantissaValue_point htake (cs.drop whole.toNat)
      have hlength : (-((cs.drop whole.toNat).length : ℤ)) = whole - cs.length := by
        rw [List.length_drop]
        omega
      rw [List.take_append_drop, hlength] at hwhole
      simpa using hwhole

theorem mem_pointed {cs : List Char} (h : AllDigits cs) {whole : ℤ} {c : Char}
    (hc : c ∈ pointed cs whole) : c.isDigit = true ∨ c = '.' := by
  have hzeros (n : Nat) (hn : c ∈ List.replicate n '0') : c.isDigit = true := allDigits_replicate n c hn
  rw [pointed] at hc
  split at hc
  · simp only [List.cons_append, List.nil_append, List.mem_cons, List.mem_append] at hc
    rcases hc with rfl | rfl | hc | hc
    · exact .inl rfl
    · exact .inr rfl
    · exact .inl (hzeros _ hc)
    · exact .inl (h c hc)
  · dsimp only at hc
    split at hc
    · simp only [List.mem_cons, List.mem_append, List.not_mem_nil, or_false] at hc
      rcases hc with (hc | hc) | rfl | rfl
      · exact .inl (h c hc)
      · exact .inl (hzeros _ hc)
      · exact .inr rfl
      · exact .inl rfl
    · simp only [List.mem_append, List.mem_singleton] at hc
      rcases hc with (hc | rfl) | hc
      · exact .inl (h c (List.mem_of_mem_take hc))
      · exact .inr rfl
      · exact .inl (h c (List.mem_of_mem_drop hc))

theorem point_mem_pointed (cs : List Char) (whole : ℤ) : '.' ∈ pointed cs whole := by
  rw [pointed]
  split
  · simp
  · dsimp only
    split <;> simp

theorem pointed_head {cs : List Char} (h : AllDigits cs) (hne : cs ≠ []) (whole : ℤ) :
    ∃ c t, pointed cs whole = c :: t ∧ c.isDigit = true := by
  obtain ⟨c, t, rfl⟩ := List.exists_cons_of_ne_nil hne
  have hc : c.isDigit = true := h c List.mem_cons_self
  rw [pointed]
  split
  case isTrue => exact ⟨'0', _, rfl, rfl⟩
  case isFalse hlarge =>
    dsimp only
    split
    case isTrue => exact ⟨c, _, rfl, hc⟩
    case isFalse =>
      obtain ⟨n, hn⟩ : ∃ n, whole.toNat = n + 1 := ⟨whole.toNat - 1, by omega⟩
      rw [hn]
      exact ⟨c, _, rfl, hc⟩

/-! ### Digits with an exponent -/

def mantissa : List Char → List Char
  | [] => []
  | [c] => [c]
  | c :: rest => c :: '.' :: rest

def exponentDigits (signed : Bool) (n : ℤ) : List Char :=
  (if n < 0 then ['-'] else if signed then ['+'] else []) ++ digitChars n.natAbs

theorem mantissa_cons (c : Char) {rest : List Char} (h : rest ≠ []) :
    mantissa (c :: rest) = [c] ++ '.' :: rest := by
  cases rest with
  | nil => exact absurd rfl h
  | cons d rest => rfl

theorem mem_mantissa {cs : List Char} (h : AllDigits cs) {c : Char} (hc : c ∈ mantissa cs) :
    c.isDigit = true ∨ c = '.' := by
  rw [mantissa.eq_def] at hc
  split at hc
  · cases hc
  · exact .inl (h c hc)
  · simp only [List.mem_cons] at hc
    rcases hc with rfl | rfl | hc
    · exact .inl (h c List.mem_cons_self)
    · exact .inr rfl
    · exact .inl (h c (List.mem_cons_of_mem _ hc))

theorem mantissa_head {cs : List Char} (h : AllDigits cs) (hne : cs ≠ []) :
    ∃ c t, mantissa cs = c :: t ∧ c.isDigit = true := by
  obtain ⟨c, t, rfl⟩ := List.exists_cons_of_ne_nil hne
  have hc : c.isDigit = true := h c List.mem_cons_self
  cases t with
  | nil => exact ⟨c, _, rfl, hc⟩
  | cons d t => exact ⟨c, _, rfl, hc⟩

/-- All digits but the first are behind the point. -/
theorem mantissaValue_mantissa {cs : List Char} (h : AllDigits cs) (hne : cs ≠ []) :
    mantissaValue (mantissa cs) = Nat.ofDigitChars 10 cs 0 * 10 ^ (1 - cs.length : ℤ) := by
  obtain ⟨c, t, rfl⟩ := List.exists_cons_of_ne_nil hne
  cases t with
  | nil =>
    rw [mantissa, mantissaValue_digits h]
    simp
  | cons d t =>
    have hfirst : AllDigits [c] := fun x hx => h x (List.mem_singleton.mp hx ▸ List.mem_cons_self)
    have hlength : (-((d :: t).length : ℤ)) = 1 - (c :: d :: t).length := by
      simp only [List.length_cons]
      omega
    rw [mantissa_cons c (List.cons_ne_nil d t), mantissaValue_point hfirst, hlength]
    rfl

/-- A sign in front of the digits of an exponent is read as it is written. -/
theorem exponentValue_exponentDigits (signed : Bool) (n : ℤ) :
    exponentValue (exponentDigits signed n) = n := by
  have hvalue := ofDigitChars_digitChars n.natAbs
  rw [exponentDigits]
  split
  · rw [List.singleton_append, exponentValue, hvalue]
    omega
  · split
    · rw [List.singleton_append, exponentValue, hvalue]
      omega
    · rw [List.nil_append, exponentValue_digits (allDigits_digitChars _), hvalue]
      omega

theorem mem_exponentDigits {signed : Bool} {n : ℤ} {c : Char} (hc : c ∈ exponentDigits signed n) :
    c.isDigit = true ∨ c = '-' ∨ c = '+' := by
  rcases List.mem_append.mp hc with hsign | hdigit
  · split at hsign
    · exact .inr (.inl (List.mem_singleton.mp hsign))
    · split at hsign
      · exact .inr (.inr (List.mem_singleton.mp hsign))
      · cases hsign
  · exact .inl (allDigits_digitChars _ c hdigit)

/-! ### Layouts -/

namespace Layout

variable (layout : Layout) (d : Digits)

/-- A decimal is laid out with a point among its digits, or with an exponent behind them. -/
theorem digits_cases :
    layout.digits d = pointed (digitChars d.digits) (d.scale + (digitChars d.digits).length) ∨
      layout.digits d = mantissa (digitChars d.digits) ++ 'e' ::
        exponentDigits layout.signedExponent (d.scale + (digitChars d.digits).length - 1) := by
  rw [digits]
  dsimp only
  split
  · rw [sub_add_cancel]
    exact .inl rfl
  · rw [List.append_assoc]
    exact .inr rfl

/-- The text of a decimal denotes its value, whatever the layout. -/
theorem textValue_digits : textValue (layout.digits d) = d.value := by
  have hdigits := allDigits_digitChars d.digits
  have hnoe {c : Char} (hc : c.isDigit = true ∨ c = '.') : c ≠ 'e' := by
    rintro rfl
    exact absurd hc (by decide)
  rw [Digits.value]
  rcases layout.digits_cases d with h | h
  · rw [h, textValue_plain fun c hc => hnoe (mem_pointed hdigits hc), mantissaValue_pointed hdigits,
      ofDigitChars_digitChars, add_sub_cancel_right]
  · have hscale : (1 - (digitChars d.digits).length +
        (d.scale + (digitChars d.digits).length - 1) : ℤ) = d.scale := by omega
    rw [h, textValue_exponent fun c hc => hnoe (mem_mantissa hdigits hc),
      mantissaValue_mantissa hdigits (digitChars_ne_nil _), exponentValue_exponentDigits,
      ofDigitChars_digitChars, mul_assoc, ← zpow_add₀ (by norm_num), hscale]

theorem digits_head : ∃ c t, layout.digits d = c :: t ∧ c.isDigit = true := by
  have hdigits := allDigits_digitChars d.digits
  have hne := digitChars_ne_nil d.digits
  rcases layout.digits_cases d with h | h
  · rw [h]
    exact pointed_head hdigits hne _
  · obtain ⟨c, t, hmantissa, hc⟩ := mantissa_head hdigits hne
    rw [h, hmantissa]
    exact ⟨c, _, rfl, hc⟩

theorem point_or_exponent_mem : '.' ∈ layout.digits d ∨ 'e' ∈ layout.digits d := by
  rcases layout.digits_cases d with h | h
  · exact .inl (h ▸ point_mem_pointed _ _)
  · exact .inr (h ▸ List.mem_append_right _ List.mem_cons_self)

variable {layout d}

theorem mem_digits {c : Char} (hc : c ∈ layout.digits d) :
    c.isDigit = true ∨ c ∈ ['.', 'e', '-', '+'] := by
  have hdigits := allDigits_digitChars d.digits
  have hpoint (h : c.isDigit = true ∨ c = '.') : c.isDigit = true ∨ c ∈ ['.', 'e', '-', '+'] :=
    h.imp_right fun he => by simp [he]
  rcases layout.digits_cases d with h | h
  · exact hpoint (mem_pointed hdigits (h ▸ hc))
  · rw [h, List.mem_append, List.mem_cons] at hc
    rcases hc with hc | rfl | hc
    · exact hpoint (mem_mantissa hdigits hc)
    · exact .inr (by simp)
    · exact (mem_exponentDigits hc).imp_right fun he => by rcases he with rfl | rfl <;> simp

end Layout

end Milp.Decimal
