import Milp.Proofs.Display.Readability

/-! Unique readability of comparisons and of constraints. The quantifiers of a constraint follow its
body behind a space, and each of them is closed by a comma or the end of the text. -/
namespace Milp

def QuantifierCloses (s : List Char) : Prop := ∀ c t, s = c :: t → c = ','

theorem quantifierCloses_nil : QuantifierCloses [] := nofun

namespace Quantifier

def chars (q : Quantifier) : List Char :=
  'f' :: 'o' :: 'r' :: ' ' :: (Range.chars ⟨q.index, q.set⟩ ++ Condition.chars q.condition)

theorem toList_text (q : Quantifier) : q.text.toList = q.chars := by
  rw [text]
  simp [chars, Range.chars, Condition.toList_suffix]

/-- A quantifier is determined by the text that it begins, up to what its condition does not show. -/
theorem chars_inj {q q' : Quantifier} (hq : q.Legible) (hq' : q'.Legible) {s s' : List Char}
    (hs : QuantifierCloses s) (hs' : QuantifierCloses s') (h : q.chars ++ s = q'.chars ++ s') :
    q.erase = q'.erase ∧ s = s' := by
  have hcloses {t : List Char} (ht : QuantifierCloses t) : Closes t := by
    rintro c u hc
    rw [ht c u hc]
    rfl
  have hspace {t : List Char} (ht : QuantifierCloses t) (u : List Char) : t ≠ ' ' :: u := fun hu =>
    absurd (ht ' ' u hu) (by decide)
  have hcondition (c : Option (Comparison Expr)) {t : List Char} (ht : QuantifierCloses t) :
      Closes (Condition.chars c ++ t) := by
    cases c with
    | none => exact hcloses ht
    | some c => exact closes_cons rfl _
  obtain ⟨index, set, condition⟩ := q
  obtain ⟨index', set', condition'⟩ := q'
  simp only [chars, List.cons_append, List.append_assoc, List.cons.injEq, true_and] at h
  obtain ⟨hrange, hrest⟩ := Range.chars_inj ⟨hq.index, hq.set⟩ ⟨hq'.index, hq'.set⟩
    (hcondition condition hs) (hcondition condition' hs') h
  cases hrange
  obtain ⟨herase, hend⟩ := Condition.chars_inj (fun c _ => ⟨c.left.readable, c.right.readable⟩)
    hq.condition hq'.condition (hcloses hs) (hcloses hs') (hspace hs) (hspace hs') hrest
  exact ⟨by rw [erase, erase, herase], hend⟩

end Quantifier

namespace Constraint

def suffix : List Quantifier → List Char
  | [] => []
  | q :: qs => ' ' :: listed Quantifier.chars (q :: qs)

theorem toList_text (c : Constraint) :
    c.text.toList = Comparison.chars c.body ++ suffix c.quantifiers := by
  rw [text]
  split
  case h_1 hnone => rw [hnone, suffix, List.append_nil, Comparison.toList_text]
  case h_2 hsome =>
    obtain ⟨q, qs, hqs⟩ := List.exists_cons_of_ne_nil hsome
    have hchars : (fun q : Quantifier => q.text.toList) = Quantifier.chars :=
      funext Quantifier.toList_text
    rw [hqs, suffix, String.toList_append, String.toList_append, Comparison.toList_text,
      toList_intercalate_map, hchars]
    simp

theorem closes_suffix (qs : List Quantifier) : Closes (suffix qs) := by
  cases qs with
  | nil => exact closes_nil
  | cons q qs => exact closes_cons rfl _

theorem suffix_inj {qs qs' : List Quantifier} (hqs : ∀ q ∈ qs, q.Legible)
    (hqs' : ∀ q ∈ qs', q.Legible) (h : suffix qs = suffix qs') :
    qs.map Quantifier.erase = qs'.map Quantifier.erase := by
  cases qs with
  | nil =>
    cases qs' with
    | nil => rfl
    | cons q' qs' => cases h
  | cons q qs =>
    cases qs' with
    | nil => cases h
    | cons q' qs' =>
      have hlists : listed Quantifier.chars (q :: qs) ++ [] =
          listed Quantifier.chars (q' :: qs') ++ [] := by
        rw [List.append_nil, List.append_nil]
        exact (List.cons.inj h).2
      have hnext (t : List Char) : QuantifierCloses (',' :: t) := by
        rintro _ _ ⟨⟩
        rfl
      exact (listed_cons_inj Quantifier.erase
        (fun a ha b hb _ _ hs hs' => Quantifier.chars_inj (hqs a ha) (hqs' b hb) hs hs')
        hnext quantifierCloses_nil quantifierCloses_nil nofun nofun hlists).1

end Constraint

theorem Expr.text_inj {e d : Expr} (he : e.Legible) (hd : d.Legible) (h : e.text = d.text) :
    e.erase = d.erase := by
  have hchars : e.chars ++ [] = d.chars ++ [] := by rw [chars, chars, h]
  exact (e.readable he d hd [] [] closes_nil closes_nil hchars).1

theorem Comparison.text_inj {c d : Comparison Expr} (hc : c.Legible) (hd : d.Legible)
    (h : c.text = d.text) : erase c = erase d := by
  have hchars : c.chars ++ [] = d.chars ++ [] := by rw [← c.toList_text, ← d.toList_text, h]
  exact (chars_inj c.left.readable c.right.readable hc hd closes_nil closes_nil hchars).1

theorem Constraint.text_inj {a b : Constraint} (ha : a.Legible) (hb : b.Legible)
    (h : a.text = b.text) : Comparison.erase a.body = Comparison.erase b.body ∧
      a.quantifiers.map Quantifier.erase = b.quantifiers.map Quantifier.erase := by
  have hchars : Comparison.chars a.body ++ suffix a.quantifiers =
      Comparison.chars b.body ++ suffix b.quantifiers := by rw [← a.toList_text, ← b.toList_text, h]
  obtain ⟨hbody, hsuffix⟩ := Comparison.chars_inj a.body.left.readable a.body.right.readable
    ha.body hb.body (closes_suffix _) (closes_suffix _) hchars
  exact ⟨hbody, suffix_inj ha.quantifiers hb.quantifiers hsuffix⟩

/-- The text of a constraint only depends on its body and its quantifiers up to erasure. -/
theorem Constraint.text_congr {a b : Constraint}
    (hbody : Comparison.erase a.body = Comparison.erase b.body)
    (hquantifiers : a.quantifiers.map Quantifier.erase = b.quantifiers.map Quantifier.erase) :
    a.text = b.text := by
  have herased (qs : List Quantifier) :
      (qs.map Quantifier.erase).map Quantifier.text = qs.map Quantifier.text := by
    rw [List.map_map]
    exact List.map_congr_left fun q _ => q.text_erase
  have htexts : a.quantifiers.map Quantifier.text = b.quantifiers.map Quantifier.text := by
    rw [← herased, hquantifiers, herased]
  have htext (c : Constraint) : c.text =
      if c.quantifiers.map Quantifier.text = [] then c.body.text
      else c.body.text ++ " " ++ ", ".intercalate (c.quantifiers.map Quantifier.text) := by
    rw [text]
    cases c.quantifiers <;> rfl
  rw [htext, htext, htexts, ← a.body.text_erase, ← b.body.text_erase, hbody]

/-- Displays are uniquely readable. Expressions of identifiers and finite numbers have the same
display if and only if they agree up to erasure, and so have comparisons and constraints with their
quantifiers. Words that the notation uses itself are not excluded as names: the bracket or the space
behind a word tells what it is. -/
theorem text_eq_iff_erase_eq :
    (∀ e d : Expr, e.Legible → d.Legible → (e.text = d.text ↔ e.erase = d.erase)) ∧
    (∀ c d : Comparison Expr, c.Legible → d.Legible →
      (c.text = d.text ↔ Comparison.erase c = Comparison.erase d)) ∧
    ∀ a b : Constraint, a.Legible → b.Legible →
      (a.text = b.text ↔ Comparison.erase a.body = Comparison.erase b.body ∧
        a.quantifiers.map Quantifier.erase = b.quantifiers.map Quantifier.erase) := by
  refine ⟨fun e d he hd => ⟨Expr.text_inj he hd, fun h => ?_⟩,
    fun c d hc hd => ⟨Comparison.text_inj hc hd, fun h => ?_⟩,
    fun a b ha hb => ⟨Constraint.text_inj ha hb, fun h => Constraint.text_congr h.1 h.2⟩⟩
  · rw [← e.text_erase, h, d.text_erase]
  · rw [← c.text_erase, h, d.text_erase]

def Constraint.weighted (kind : RefKind) (position bound : Expr) : Constraint :=
  let summand := .binary .mul (.number (.float 2.5)) (.refAt kind "x" [position, .indexVar "j"])
  let distinct := ⟨.indexComparison, .indexVar "j", .ne, .indexVar "i"⟩
  ⟨"weighted", ⟨.comparison, .aggregate ⟨.sum, summand, [⟨"j", "J"⟩], some distinct⟩, .le, bound⟩,
    some [⟨"i", "I", none⟩]⟩

theorem Constraint.legible_weighted (kind : RefKind) {position bound : Expr}
    (hposition : position.Legible) (hbound : bound.Legible) :
    (weighted kind position bound).Legible := by
  have hfloat : (2.5 : Float).isFinite = true := by decide +kernel
  have hnames : ∀ s ∈ ["x", "i", "j", "I", "J"], isIdentifier s = true := by decide +kernel
  refine ⟨⟨⟨fun s hs => ?_, ?_⟩, hbound⟩, ?_⟩
  · have hcases : s ∈ ["x", "i", "j", "I", "J"] ∨ s ∈ position.labels := by
      simp only [weighted, Expr.labels, Expr.labelsAll, Aggregation.labels, Condition.labels,
        Comparison.labels, List.flatMap_cons, List.flatMap_nil, List.append_nil, List.cons_append,
        List.nil_append, List.mem_cons, List.mem_append, List.not_mem_nil, or_false] at hs ⊢
      tauto
    exact hcases.elim (hnames s) (hposition.labels s)
  · refine Expr.finite_aggregate.mpr ⟨Expr.finite_binary.mpr ⟨?_, ?_⟩, ?_⟩
    · refine Expr.finite_number.mpr fun x hx => ?_
      cases hx
      exact hfloat
    · refine Expr.finite_refAt.mpr fun e he => ?_
      simp only [List.mem_cons, List.not_mem_nil, or_false] at he
      rcases he with rfl | rfl
      · exact hposition.finite
      · exact Expr.finite_indexVar _
    · rintro c ⟨⟩
      exact ⟨Expr.finite_indexVar _, Expr.finite_indexVar _⟩
  · intro q hq
    cases List.mem_singleton.mp hq
    exact ⟨hnames _ (by simp), hnames _ (by simp), nofun⟩

/-- A variable at an index is shown like a parameter at a name, but a negative bound not like the
negation of a bound. -/
theorem text_eq_iff_erase_eq_weighted :
    let a := Constraint.weighted .variable (.indexVar "i") (.number (.int (-3)))
    let b := Constraint.weighted .parameter (.string "i") (.number (.int (-3)))
    let c := Constraint.weighted .variable (.indexVar "i") (.unary .negate (.number (.int 3)))
    (a.Legible ∧ b.Legible ∧ c.Legible) ∧ (a.text = b.text ∧ a.text ≠ c.text) ∧
      (a.body.text = b.body.text ∧ a.body.text ≠ c.body.text) ∧
      a.body.left.text = b.body.left.text ∧ a.body.right.text ≠ c.body.right.text := by
  intro a b c
  obtain ⟨hexpr, hcomparison, hconstraint⟩ := text_eq_iff_erase_eq
  have hint (n : Int64) : (Expr.number (.int n)).Legible := ⟨nofun, Expr.finite_number.mpr nofun⟩
  have hposition (e : Expr) (hlabels : ∀ s ∈ e.labels, s = "i") (hfinite : e.Finite) : e.Legible :=
    ⟨fun s hs => hlabels s hs ▸ by decide +kernel, hfinite⟩
  have hindex : (Expr.indexVar "i").Legible :=
    hposition _ (by simp [Expr.labels]) (Expr.finite_indexVar _)
  have hstring : (Expr.string "i").Legible :=
    hposition _ (by simp [Expr.labels]) (Expr.finite_string _)
  have hnegation : (Expr.unary .negate (.number (.int 3))).Legible :=
    ⟨nofun, Expr.finite_unary.mpr (hint 3).finite⟩
  have ha : a.Legible := Constraint.legible_weighted _ hindex (hint _)
  have hb : b.Legible := Constraint.legible_weighted _ hstring (hint _)
  have hc : c.Legible := Constraint.legible_weighted _ hindex hnegation
  refine ⟨⟨ha, hb, hc⟩, ⟨?_, ?_⟩, ⟨?_, ?_⟩, ?_, ?_⟩
  · exact (hconstraint a b ha hb).mpr ⟨rfl, rfl⟩
  · exact fun h => nomatch ((hconstraint a c ha hc).mp h).1
  · exact (hcomparison a.body b.body ha.body hb.body).mpr rfl
  · exact fun h => nomatch (hcomparison a.body c.body ha.body hc.body).mp h
  · exact (hexpr a.body.left b.body.left ha.body.1 hb.body.1).mpr rfl
  · exact fun h => nomatch (hexpr a.body.right c.body.right ha.body.2 hc.body.2).mp h

end Milp
