import Milp.Proofs.Failure
import Milp.Scalar.Arithmetic

/-! Arithmetic on host scalars. An operator on integers gives the exact result where that is in range
and a double otherwise, so that nothing wraps. Once an operand is a double, so is the result. -/
namespace Milp

theorem int64?_eq_some {k : Int} {n : Int64} : int64? k = some n ↔ n.toInt = k := by
  rw [int64?, Option.ite_none_right_eq_some, Option.some.injEq]
  constructor
  · rintro ⟨⟨hlo, hhi⟩, rfl⟩
    exact Int64.toInt_ofInt_of_le hlo (Int.lt_add_one_of_le hhi)
  · rintro rfl
    exact ⟨⟨n.minValue_le_toInt, n.toInt_le⟩, Int64.ofInt_toInt n⟩

@[simp] theorem int64?_toInt (n : Int64) : int64? n.toInt = some n :=
  int64?_eq_some.mpr rfl

theorem int64?_eq_none {k : Int} : int64? k = none ↔ ∀ n : Int64, n.toInt ≠ k := by
  simp only [Option.eq_none_iff_forall_not_mem, Option.mem_def, int64?_eq_some, ne_eq]

namespace Scalar

variable {scope : Scope}

/-- Whether a scalar is what an operator gives for an exact result: the integer itself where that is
in range, and a double otherwise. -/
inductive ExactOrFloat (k : Int) : Scalar → Prop
  | exact {n : Int64} : n.toInt = k → ExactOrFloat k (int n)
  | wide (x : Float) : (∀ n : Int64, n.toInt ≠ k) → ExactOrFloat k (float x)

theorem negate_exact (a : Int64) (scope : Scope) :
    ∃ c, (int a).unary .negate scope = .ok c ∧ c.ExactOrFloat (-a.toInt) := by
  rw [unary]
  cases h : int64? (-a.toInt) with
  | some n => exact ⟨int n, rfl, .exact (int64?_eq_some.mp h)⟩
  | none => exact ⟨_, rfl, .wide _ (int64?_eq_none.mp h)⟩

/-- The least integer has no negation in range. -/
example : ∃ x, (int Int64.minValue).unary .negate .root = .ok (float x) := ⟨_, rfl⟩

theorem exists_exactResult {op : BinaryOp} (hop : op ≠ .div) (a b : Int) :
    ∃ k, exactResult? op a b = some k := by
  cases op with
  | div => exact absurd rfl hop
  | _ => exact ⟨_, rfl⟩

theorem exists_floating {op : BinaryOp} (hop : op ≠ .div) (x y : Float) (scope : Scope) :
    ∃ z, floating op x y scope = .ok (float z) := by
  cases op with
  | div => exact absurd rfl hop
  | _ => exact ⟨_, rfl⟩

theorem binary_exact {op : BinaryOp} {a b : Int64} {k : Int}
    (hk : exactResult? op a.toInt b.toInt = some k) (scope : Scope) :
    ∃ c, (int a).binary op (int b) scope = .ok c ∧ c.ExactOrFloat k := by
  have hintegral : integral op a b = int64? k := by rw [integral, hk]
  rw [binary, hintegral]
  cases h : int64? k with
  | some n => exact ⟨int n, rfl, .exact (int64?_eq_some.mp h)⟩
  | none =>
    have hop : op ≠ .div := by
      rintro rfl
      cases hk
    obtain ⟨z, hz⟩ := exists_floating hop (nearestDouble a) (nearestDouble b) scope
    exact ⟨float z, hz, .wide z (int64?_eq_none.mp h)⟩

/-- An operator other than division gives a number on numbers, and a double once an operand is
one. -/
theorem binary_numeric {op : BinaryOp} (hop : op ≠ .div) {s t c : Scalar}
    (hs : s.isNumeric = true) (ht : t.isNumeric = true) (h : s.binary op t scope = .ok c) :
    c.isNumeric = true ∧ ((∃ x, s = float x) ∨ (∃ x, t = float x) → ∃ x, c = float x) := by
  have hfloat {x y : Float} (h : floating op x y scope = .ok c) :
      c.isNumeric = true ∧ ∃ x, c = float x := by
    obtain ⟨z, hz⟩ := exists_floating hop x y scope
    cases hz.symm.trans h
    exact ⟨rfl, z, rfl⟩
  match s, t with
  | int a, int b =>
    obtain ⟨k, hk⟩ := exists_exactResult hop a.toInt b.toInt
    obtain ⟨c', hc, hexact⟩ := binary_exact hk scope
    cases hc.symm.trans h
    refine ⟨by cases hexact <;> rfl, ?_⟩
    rintro (⟨x, hx⟩ | ⟨x, hx⟩) <;> cases hx
  | int a, float y => exact (hfloat h).imp_right fun hc _ => hc
  | float x, int b => exact (hfloat h).imp_right fun hc _ => hc
  | float x, float y => exact (hfloat h).imp_right fun hc _ => hc

/-! A running total of numbers. -/

variable {total c : Scalar}

/-- A total with a double in it is one. -/
theorem total_float {ss : List Scalar} (htotal : total.isNumeric = true)
    (hss : ∀ s ∈ ss, s.isNumeric = true)
    (hfloat : (∃ x, total = float x) ∨ ∃ s ∈ ss, ∃ x, s = float x)
    (h : ss.foldlM (fun total s => total.binary .add s scope) total = .ok c) :
    ∃ x, c = float x := by
  induction ss generalizing total with
  | nil =>
    cases h
    rcases hfloat with hfloat | ⟨s, hs, _⟩
    · exact hfloat
    · cases hs
  | cons s ss ih =>
    rw [List.foldlM_cons] at h
    obtain ⟨next, hnext, h⟩ := bind_eq_ok.mp h
    rw [List.forall_mem_cons] at hss
    have hadd : BinaryOp.add ≠ .div := nofun
    obtain ⟨hnumeric, hwide⟩ := binary_numeric hadd htotal hss.1 hnext
    refine ih hnumeric hss.2 ?_ h
    rcases hfloat with hfloat | ⟨t, ht, hfloat⟩
    · exact .inl (hwide (.inl hfloat))
    · rcases List.mem_cons.mp ht with rfl | ht
      · exact .inl (hwide (.inr hfloat))
      · exact .inr ⟨t, ht, hfloat⟩

/-- A total of integers is exact if all totals on the way are in range, and a double if one is not. -/
theorem total_exact {ns : List Int64} {a : Int64}
    (h : (ns.map int).foldlM (fun total s => total.binary .add s scope) (int a) = .ok c) :
    (∃ n : Int64, c = int n ∧ n.toInt = a.toInt + (ns.map Int64.toInt).sum ∧
      ∀ i, ∃ m : Int64, m.toInt = a.toInt + ((ns.take i).map Int64.toInt).sum) ∨
    ((∃ x, c = float x) ∧
      ∃ i, ∀ m : Int64, m.toInt ≠ a.toInt + ((ns.take i).map Int64.toInt).sum) := by
  induction ns generalizing a with
  | nil =>
    cases h
    exact .inl ⟨a, rfl, by simp, fun i => ⟨a, by simp⟩⟩
  | cons b ns ih =>
    rw [List.map_cons, List.foldlM_cons] at h
    obtain ⟨next, hnext, h⟩ := bind_eq_ok.mp h
    have hsum : exactResult? .add a.toInt b.toInt = some (a.toInt + b.toInt) := rfl
    obtain ⟨next', hnext', hexact⟩ := binary_exact hsum scope
    cases hnext'.symm.trans hnext
    cases hexact with
    | @exact m hm =>
      rcases ih h with ⟨n, hc, hn, hall⟩ | ⟨hc, i, hi⟩
      · refine .inl ⟨n, hc, ?_, fun i => ?_⟩
        · rw [hn, hm, List.map_cons, List.sum_cons, add_assoc]
        · cases i with
          | zero => exact ⟨a, by simp⟩
          | succ i =>
            obtain ⟨l, hl⟩ := hall i
            exact ⟨l, by rw [hl, hm, List.take_succ_cons, List.map_cons, List.sum_cons, add_assoc]⟩
      · refine .inr ⟨hc, i + 1, fun l => ?_⟩
        rw [List.take_succ_cons, List.map_cons, List.sum_cons, ← add_assoc, ← hm]
        exact hi l
    | wide x hwide =>
      refine .inr ⟨?_, 1, fun l => ?_⟩
      · refine total_float rfl ?_ (.inl ⟨x, rfl⟩) h
        simp [isNumeric]
      · simpa using hwide l

end Scalar

end Milp
