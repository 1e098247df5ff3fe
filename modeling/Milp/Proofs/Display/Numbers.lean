import Milp.Proofs.Decimal.Shortest
import Milp.Proofs.Display.Words
import Milp.Proofs.Document.Finite

/-! Displayed numbers. The digits of a finite double are in its rounding interval, so no two doubles
have the same text. A point or an exponent sets a double apart from an integer, and no delimiter
occurs in a number. -/
namespace Milp

namespace Decimal

def Layout.unsigned (layout : Layout) (d : Dyadic) : List Char :=
  if d.significand = 0 then ['0', '.', '0'] else layout.digits (shortest layout.tie d)

def sign (negative : Bool) : List Char := if negative then ['-'] else []

theorem sign_inj {a b : Bool} {c c' : Char} {s s' : List Char} (hc : c.isDigit = true)
    (hc' : c'.isDigit = true) (h : sign a ++ c :: s = sign b ++ c' :: s') :
    a = b ∧ c :: s = c' :: s' := by
  cases a <;> cases b
  · exact ⟨rfl, h⟩
  · rw [(List.cons.inj h).1] at hc
    cases hc
  · rw [← (List.cons.inj h).1] at hc'
    cases hc'
  · exact ⟨rfl, (List.cons.inj h).2⟩

namespace Layout

variable (layout : Layout) {x y : Float} {d : Dyadic}

theorem toList_text (h : Dyadic.ofFloat? x = some d) :
    (layout.text x).toList = sign d.negative ++ layout.unsigned d := by
  rw [text, h, unsigned, sign]
  dsimp only
  split <;> rw [String.toList_ofList]

theorem unsigned_head (d : Dyadic) : ∃ c t, layout.unsigned d = c :: t ∧ c.isDigit = true := by
  rw [unsigned]
  split
  · exact ⟨'0', _, rfl, rfl⟩
  · exact layout.digits_head _

theorem point_or_exponent_mem_unsigned (d : Dyadic) :
    '.' ∈ layout.unsigned d ∨ 'e' ∈ layout.unsigned d := by
  rw [unsigned]
  split
  · exact .inl (by simp)
  · exact layout.point_or_exponent_mem _

variable {layout}

theorem mem_unsigned {c : Char} (hc : c ∈ layout.unsigned d) :
    c.isDigit = true ∨ c ∈ ['.', 'e', '-', '+'] := by
  rw [unsigned] at hc
  split at hc
  · simp only [List.mem_cons, List.not_mem_nil, or_false] at hc
    rcases hc with rfl | rfl | rfl
    · exact .inl rfl
    · exact .inr List.mem_cons_self
    · exact .inl rfl
  · exact mem_digits hc

/-- What the text of a double denotes rounds to it. -/
theorem rounds_unsigned (hd : d.Legal) : d.Rounds (textValue (layout.unsigned d)) := by
  rw [unsigned]
  split
  case isTrue hzero =>
    have hmagnitude : d.magnitude = 0 := by rw [Dyadic.magnitude, hzero, Nat.cast_zero, zero_mul]
    have hlayout : ['0', '.', '0'] = display.digits ⟨0, 0⟩ := by decide +kernel
    have hvalue : textValue ['0', '.', '0'] = 0 := by
      rw [hlayout, textValue_digits, Digits.value, Nat.cast_zero, zero_mul]
    rw [hvalue, ← hmagnitude]
    exact ⟨d.low_lt_magnitude.le, d.magnitude_lt_high.le, fun _ => by rw [hzero]⟩
  case isFalse hpos =>
    rw [textValue_digits]
    exact rounds_shortest layout.tie hd hpos

/-- No two finite doubles have the same text. -/
theorem text_inj (hx : x.isFinite = true) (hy : y.isFinite = true)
    (h : layout.text x = layout.text y) : x = y := by
  obtain ⟨d, hd⟩ := Dyadic.exists_ofFloat? hx
  obtain ⟨d', hd'⟩ := Dyadic.exists_ofFloat? hy
  obtain ⟨c, t, hc, hdigit⟩ := layout.unsigned_head d
  obtain ⟨c', t', hc', hdigit'⟩ := layout.unsigned_head d'
  have htext : sign d.negative ++ c :: t = sign d'.negative ++ c' :: t' := by
    rw [← hc, ← hc', ← layout.toList_text hd, ← layout.toList_text hd', h]
  obtain ⟨hsign, hunsigned⟩ := sign_inj hdigit hdigit' htext
  rw [← hc, ← hc'] at hunsigned
  have hlegal := Dyadic.legal_ofFloat? hd
  have hlegal' := Dyadic.legal_ofFloat? hd'
  obtain ⟨hsignificand, hexponent⟩ :=
    hlegal.eq_of_rounds hlegal' (rounds_unsigned hlegal) (hunsigned ▸ rounds_unsigned hlegal')
  have hdyadic : d = d' := by
    obtain ⟨n, m, e⟩ := d
    obtain ⟨n', m', e'⟩ := d'
    cases hsign
    cases hsignificand
    cases hexponent
    rfl
  subst hdyadic
  exact Dyadic.ofFloat?_inj hd hd'

end Layout

theorem toList_repr (n : ℤ) : n.repr.toList = sign (n < 0) ++ digitChars n.natAbs := by
  cases n with
  | ofNat m => exact Nat.toList_repr
  | negSucc m =>
    have hneg : sign (Int.negSucc m < 0) = ['-'] := by
      rw [decide_eq_true (Int.negSucc_lt_zero m), sign, if_pos rfl]
    rw [hneg, Int.repr, String.toList_append, Nat.toList_repr]
    rfl

end Decimal

namespace Number

open Decimal

theorem toList_text_int (v : Int64) :
    (int v).text.toList = sign (v.toInt < 0) ++ digitChars v.toInt.natAbs := by
  rw [text, Int.toString_eq_repr, toList_repr]

variable {n n' : Number}

/-- A number has an optional sign and a digit behind it. -/
theorem exists_toList_text (h : n.Finite) : ∃ negative c t,
    n.text.toList = sign negative ++ c :: t ∧ c.isDigit = true ∧
      ∀ x ∈ t, x.isDigit = true ∨ x ∈ ['.', 'e', '-', '+'] := by
  cases n with
  | int v =>
    have hdigits := allDigits_digitChars v.toInt.natAbs
    obtain ⟨c, t, hc⟩ := List.exists_cons_of_ne_nil (digitChars_ne_nil v.toInt.natAbs)
    rw [toList_text_int, hc]
    rw [hc] at hdigits
    exact ⟨_, c, t, rfl, hdigits c List.mem_cons_self, fun x hx =>
      .inl (hdigits x (List.mem_cons_of_mem _ hx))⟩
  | float x =>
    obtain ⟨d, hd⟩ := Dyadic.exists_ofFloat? (h x rfl)
    obtain ⟨c, t, hc, hdigit⟩ := display.unsigned_head d
    have htext : (float x).text.toList = sign d.negative ++ c :: t := by
      rw [text, display.toList_text hd, hc]
    exact ⟨_, c, t, htext, hdigit, fun y hy =>
      Layout.mem_unsigned (hc ▸ List.mem_cons_of_mem _ hy)⟩

theorem text_head (h : n.Finite) :
    ∃ c t, n.text.toList = c :: t ∧ (c.isDigit = true ∨ c = '-') := by
  obtain ⟨negative, c, t, htext, hc, -⟩ := exists_toList_text h
  cases negative with
  | false => exact ⟨c, t, htext, .inl hc⟩
  | true => exact ⟨'-', c :: t, htext, .inr rfl⟩

theorem isWord_text (h : n.Finite) : IsWord n.text.toList := by
  have hmark {x : Char} (hx : x ∈ ['.', 'e', '-', '+']) : isDelimiter x = false := by
    simp only [List.mem_cons, List.not_mem_nil, or_false] at hx
    rcases hx with rfl | rfl | rfl | rfl <;> rfl
  obtain ⟨negative, c, t, htext, hc, ht⟩ := exists_toList_text h
  intro x hx
  rw [htext, List.mem_append, List.mem_cons] at hx
  rcases hx with hx | rfl | hx
  · cases negative with
    | false => cases hx
    | true => exact hmark (by simp [List.mem_singleton.mp hx])
  · exact not_isDelimiter_of_isDigit hc
  · exact (ht x hx).elim not_isDelimiter_of_isDigit hmark

/-- The text of a double is not that of an integer. -/
theorem text_int_ne_float (v : Int64) {x : Float} (hx : x.isFinite = true) :
    (int v).text ≠ (float x).text := by
  intro h
  obtain ⟨d, hd⟩ := Dyadic.exists_ofFloat? hx
  have hdigits := allDigits_digitChars v.toInt.natAbs
  have htext : sign (v.toInt < 0) ++ digitChars v.toInt.natAbs =
      sign d.negative ++ display.unsigned d := by
    rw [← toList_text_int, h, text, display.toList_text hd]
  have hmark {m : Char} (hm : m.isDigit = false) (hminus : m ≠ '-')
      (hmem : m ∈ display.unsigned d) : False := by
    have hint : m ∈ sign (v.toInt < 0) ++ digitChars v.toInt.natAbs :=
      htext ▸ List.mem_append_right _ hmem
    rcases List.mem_append.mp hint with hsign | hdigit
    · rw [sign] at hsign
      split at hsign
      · exact hminus (List.mem_singleton.mp hsign)
      · cases hsign
    · rw [hdigits m hdigit] at hm
      cases hm
  rcases display.point_or_exponent_mem_unsigned d with hpoint | hexponent
  · exact hmark rfl (by decide) hpoint
  · exact hmark rfl (by decide) hexponent

/-- A finite number is determined by its text. -/
theorem text_inj (h : n.Finite) (h' : n'.Finite) (he : n.text = n'.text) : n = n' := by
  cases n with
  | int v =>
    cases n' with
    | int w =>
      rw [text, text, Int.toString_eq_repr, Int.toString_eq_repr, Int.repr_inj, Int64.toInt_inj] at he
      rw [he]
    | float y => exact absurd he (text_int_ne_float v (h' y rfl))
  | float x =>
    cases n' with
    | int w => exact absurd he.symm (text_int_ne_float w (h x rfl))
    | float y => rw [Layout.text_inj (h x rfl) (h' y rfl) he]

end Number

end Milp
