import Milp.Constraint
import Milp.Proofs.Document.Finite
import Milp.Proofs.Expr.Induction

/-! What the display of an expression leaves out. An index variable, a string and a reference without
indices are shown by their name alone, a variable and a parameter with the same indices look alike,
and the tag of a comparison is not shown. Erasure forgets these differences and nothing else that is
shown. -/
namespace Milp

mutual

/-- The expression without the differences that its display does not show. -/
def Expr.erase : Expr → Expr
  | .number n => .number n
  | .string s => .string s
  | .indexVar name => .string name
  | .ref _ name => .string name
  | .refAt _ name positions =>
    match Expr.eraseAll positions with
    | [] => .string name
    | ps => .refAt .variable name ps
  | .unary op e => .unary op e.erase
  | .binary op l r => .binary op l.erase r.erase
  | .aggregate a => .aggregate (Aggregation.erase a)

def Expr.eraseAll : List Expr → List Expr
  | [] => []
  | e :: es => e.erase :: Expr.eraseAll es

def Aggregation.erase : Aggregation Expr → Aggregation Expr
  | ⟨op, body, ranges, condition⟩ => ⟨op, body.erase, ranges, Condition.erase condition⟩

def Condition.erase : Option (Comparison Expr) → Option (Comparison Expr)
  | none => none
  | some c => some (Comparison.erase c)

def Comparison.erase : Comparison Expr → Comparison Expr
  | ⟨_, l, relation, r⟩ => ⟨.comparison, l.erase, relation, r.erase⟩

end

def Quantifier.erase (q : Quantifier) : Quantifier :=
  { q with condition := Condition.erase q.condition }

theorem Expr.eraseAll_eq_map (es : List Expr) : eraseAll es = es.map Expr.erase := by
  induction es with
  | nil => rfl
  | cons e es ih => rw [eraseAll, ih, List.map_cons]

theorem Expr.texts_eq_map (es : List Expr) : texts es = es.map Expr.text := by
  induction es with
  | nil => rfl
  | cons e es ih => rw [texts, ih, List.map_cons]

private theorem Condition.suffix_erase {condition : Option (Comparison Expr)}
    (h : ∀ c, condition = some c → c.left.erase.text = c.left.text ∧
      c.right.erase.text = c.right.text) : suffix (erase condition) = suffix condition := by
  cases condition with
  | none => rfl
  | some c =>
    obtain ⟨hl, hr⟩ := h c rfl
    rw [erase, suffix, suffix, Comparison.erase, Comparison.text, Comparison.text, hl, hr]

/-- Erasure changes nothing that is shown. -/
theorem Expr.text_erase (e : Expr) : e.erase.text = e.text := by
  induction e with
  | number n => rfl
  | string s => rfl
  | indexVar name => rfl
  | ref kind name => rfl
  | refAt kind name positions ih =>
    have htexts : texts (positions.map Expr.erase) = texts positions := by
      rw [texts_eq_map, texts_eq_map, List.map_map]
      exact List.map_congr_left ih
    rw [erase, eraseAll_eq_map]
    cases positions with
    | nil => rfl
    | cons p ps => rw [List.map_cons] at htexts ⊢; simp only [text, htexts]
  | unary op e ih => cases op <;> simp only [erase, text, ih]
  | binary op l r ihl ihr => simp only [erase, text, ihl, ihr]
  | aggregate op body ranges condition ih ihc =>
    rw [erase, Aggregation.erase, text, text, Aggregation.text, Aggregation.text, ih,
      Condition.suffix_erase ihc]

theorem Comparison.text_erase (c : Comparison Expr) : (erase c).text = c.text := by
  rw [erase, text, text, c.left.text_erase, c.right.text_erase]

theorem Quantifier.text_erase (q : Quantifier) : q.erase.text = q.text := by
  rw [text, text, erase, Condition.suffix_erase fun c _ => ⟨c.left.text_erase, c.right.text_erase⟩]

mutual

/-- The names and strings that the display of an expression shows. -/
def Expr.labels : Expr → List String
  | .number _ => []
  | .string s => [s]
  | .indexVar name => [name]
  | .ref _ name => [name]
  | .refAt _ name positions => name :: Expr.labelsAll positions
  | .unary _ e => e.labels
  | .binary _ l r => l.labels ++ r.labels
  | .aggregate a => Aggregation.labels a

def Expr.labelsAll : List Expr → List String
  | [] => []
  | e :: es => e.labels ++ Expr.labelsAll es

def Aggregation.labels : Aggregation Expr → List String
  | ⟨_, body, ranges, condition⟩ =>
    (ranges.flatMap fun r => [r.index, r.set]) ++ (Condition.labels condition ++ body.labels)

def Condition.labels : Option (Comparison Expr) → List String
  | none => []
  | some c => Comparison.labels c

def Comparison.labels : Comparison Expr → List String
  | ⟨_, l, _, r⟩ => l.labels ++ r.labels

end

/-- A letter or an underscore. Whatever is not ASCII counts as a letter. -/
def isNameStart (c : Char) : Bool := c.isAlpha || c == '_' || 128 ≤ c.toNat

def isIdentifier (s : String) : Bool :=
  match s.toList with
  | [] => false
  | c :: cs => isNameStart c && cs.all fun c => isNameStart c || c.isDigit

namespace Expr

/-- Whether all names and strings of an expression are identifiers and all its numbers finite. -/
structure Legible (e : Expr) : Prop where
  labels : ∀ s ∈ e.labels, isIdentifier s = true
  finite : e.Finite

end Expr

def Comparison.Legible (c : Comparison Expr) : Prop := c.left.Legible ∧ c.right.Legible

structure Quantifier.Legible (q : Quantifier) : Prop where
  index : isIdentifier q.index = true
  set : isIdentifier q.set = true
  condition : ∀ c, q.condition = some c → c.Legible

/-- Whether body and quantifiers of a constraint are made of identifiers and finite numbers. Its name
is not displayed. -/
structure Constraint.Legible (c : Constraint) : Prop where
  body : c.body.Legible
  quantifiers : ∀ q ∈ c.quantifiers, q.Legible

namespace Expr.Legible

theorem position {kind : RefKind} {name : String} {positions : List Expr}
    (h : (Expr.refAt kind name positions).Legible) {p : Expr} (hp : p ∈ positions) : p.Legible where
  labels s hs := by
    refine h.labels s (List.mem_cons_of_mem _ ?_)
    clear h
    induction positions with
    | nil => cases hp
    | cons d ds ih =>
      rcases List.mem_cons.mp hp with rfl | hp
      · exact List.mem_append_left _ hs
      · exact List.mem_append_right _ (ih hp)
  finite := finite_refAt.mp h.finite p hp

theorem operand {op : UnaryOp} {e : Expr} (h : (Expr.unary op e).Legible) : e.Legible where
  labels := h.labels
  finite := finite_unary.mp h.finite

theorem operands {op : BinaryOp} {l r : Expr} (h : (Expr.binary op l r).Legible) :
    l.Legible ∧ r.Legible := by
  obtain ⟨hl, hr⟩ := finite_binary.mp h.finite
  exact ⟨⟨fun s hs => h.labels s (List.mem_append_left _ hs), hl⟩,
    ⟨fun s hs => h.labels s (List.mem_append_right _ hs), hr⟩⟩

theorem aggregate {op : Aggregator} {body : Expr} {ranges : List Range}
    {condition : Option (Comparison Expr)}
    (h : (Expr.aggregate ⟨op, body, ranges, condition⟩).Legible) :
    body.Legible ∧ (∀ r ∈ ranges, isIdentifier r.index = true ∧ isIdentifier r.set = true) ∧
      ∀ c, condition = some c → c.Legible := by
  obtain ⟨hbody, hcondition⟩ := finite_aggregate.mp h.finite
  have hlabels (s : String) (hs : s ∈ Condition.labels condition ++ body.labels) :
      isIdentifier s = true := h.labels s (List.mem_append_right _ hs)
  refine ⟨⟨fun s hs => hlabels s (List.mem_append_right _ hs), hbody⟩, fun r hr => ?_, ?_⟩
  · have hrange (s : String) (hs : s ∈ [r.index, r.set]) : isIdentifier s = true :=
      h.labels s (List.mem_append_left _ (List.mem_flatMap.mpr ⟨r, hr, hs⟩))
    exact ⟨hrange _ (by simp), hrange _ (by simp)⟩
  · rintro ⟨form, l, relation, r⟩ rfl
    obtain ⟨hl, hr⟩ := hcondition _ rfl
    have hsides (s : String) (hs : s ∈ l.labels ++ r.labels) : isIdentifier s = true :=
      hlabels s (List.mem_append_left _ hs)
    exact ⟨⟨fun s hs => hsides s (List.mem_append_left _ hs), hl⟩,
      ⟨fun s hs => hsides s (List.mem_append_right _ hs), hr⟩⟩

end Expr.Legible

end Milp
