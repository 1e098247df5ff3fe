import Milp.Proofs.Display.Erasure
import Milp.Proofs.Display.Numbers

/-! Unique readability of displays. The display of an expression is a word, a word with a bracket
behind it, or a parenthesis, and what follows it is a closer, so that its end is found without
looking inside: two displays that begin the same text are the same, and by induction belong to
expressions that agree up to erasure. -/
namespace Milp

theorem not_isDelimiter_of_isNameStart {c : Char} (h : isNameStart c = true) :
    isDelimiter c = false := isDelimiter_eq_false rfl h

theorem not_isDigit_of_isNameStart {c : Char} (h : isNameStart c = true) : c.isDigit = false := by
  rw [Bool.eq_false_iff]
  intro hc
  obtain ⟨-, hlast⟩ := Char.isDigit_iff_toNat.mp hc
  have hlast' : c.toNat ≤ 57 := hlast
  simp only [isNameStart, Char.isAlpha, Char.isUpper, Char.isLower, UInt32.le_iff_toNat_le,
    Bool.or_eq_true, Bool.and_eq_true, decide_eq_true_eq, beq_iff_eq] at h
  rcases h with ((⟨hu, -⟩ | ⟨hl, -⟩) | rfl) | hlarge
  · have hfirst : 65 ≤ c.toNat := hu
    omega
  · have hfirst : 97 ≤ c.toNat := hl
    omega
  · exact absurd hc (by decide)
  · omega

/-- Identifiers are words, and begin with neither a digit nor a minus sign. -/
theorem isIdentifier_cases {s : String} (h : isIdentifier s = true) :
    IsWord s.toList ∧ ∃ c t, s.toList = c :: t ∧ c.isDigit = false ∧ c ≠ '-' := by
  rw [isIdentifier] at h
  split at h
  case h_1 => cases h
  case h_2 c cs hs =>
    rw [Bool.and_eq_true, List.all_eq_true] at h
    obtain ⟨hc, hcs⟩ := h
    have hminus : c ≠ '-' := by
      rintro rfl
      exact absurd hc (by decide)
    rw [hs]
    refine ⟨fun d hd => ?_, c, cs, rfl, not_isDigit_of_isNameStart hc, hminus⟩
    rcases List.mem_cons.mp hd with rfl | hd
    · exact not_isDelimiter_of_isNameStart hc
    · rcases Bool.or_eq_true_iff.mp (hcs d hd) with hname | hdigit
      · exact not_isDelimiter_of_isNameStart hname
      · exact not_isDelimiter_of_isDigit hdigit

theorem isWord_of_isIdentifier {s : String} (h : isIdentifier s = true) : IsWord s.toList :=
  (isIdentifier_cases h).1

def UnaryOp.lead : UnaryOp → List Char
  | .negate => ['-']
  | op => op.name.toList ++ [' ']

def Range.chars (r : Range) : List Char := r.index.toList ++ ' ' :: 'i' :: 'n' :: ' ' :: r.set.toList

def Expr.chars (e : Expr) : List Char := e.text.toList

namespace Comparison

def chars (c : Comparison Expr) : List Char :=
  c.left.chars ++ ' ' :: (c.relation.symbol.toList ++ ' ' :: c.right.chars)

theorem toList_text (c : Comparison Expr) : c.text.toList = chars c := by
  obtain ⟨form, l, relation, r⟩ := c
  simp [text, chars, Expr.chars]

end Comparison

namespace Condition

def chars : Option (Comparison Expr) → List Char
  | none => []
  | some c => ' ' :: 'i' :: 'f' :: ' ' :: c.chars

theorem toList_suffix (condition : Option (Comparison Expr)) :
    (suffix condition).toList = chars condition := by
  cases condition with
  | none => simp [suffix, chars]
  | some c => simp [suffix, chars, ← c.toList_text]

end Condition

namespace Expr

/-- The word that an expression begins with; none in front of a parenthesis. -/
def word : Expr → List Char
  | .number n => n.text.toList
  | .string s => s.toList
  | .indexVar name => name.toList
  | .ref _ name => name.toList
  | .refAt _ name _ => name.toList
  | .unary _ _ => []
  | .binary _ _ _ => []
  | .aggregate a => a.op.name.toList

def after : Expr → List Char
  | .refAt _ _ (p :: ps) => '[' :: (listed chars (p :: ps) ++ [']'])
  | .unary op e => '(' :: (op.lead ++ (e.chars ++ [')']))
  | .binary op l r => '(' :: (l.chars ++ ' ' :: (op.symbol.toList ++ ' ' :: (r.chars ++ [')'])))
  | .aggregate a =>
    '(' :: (a.body.chars ++ ' ' :: 'f' :: 'o' :: 'r' :: ' ' ::
      (listed Range.chars a.ranges ++ (Condition.chars a.condition ++ [')'])))
  | _ => []

def opener : Expr → Option Char
  | .refAt _ _ (_ :: _) => some '['
  | .unary _ _ => some '('
  | .binary _ _ _ => some '('
  | .aggregate _ => some '('
  | _ => none

theorem chars_eq (e : Expr) : e.chars = e.word ++ e.after := by
  cases e with
  | number n => simp [chars, text, word, after]
  | string s => simp [chars, text, word, after]
  | indexVar name => simp [chars, text, word, after]
  | ref kind name => simp [chars, text, word, after]
  | refAt kind name positions =>
    cases positions with
    | nil => simp [chars, text, texts, word, after]
    | cons p ps =>
      have hlist : (", ".intercalate (texts (p :: ps))).toList = listed chars (p :: ps) := by
        rw [texts_eq_map]
        exact toList_intercalate_map text (p :: ps)
      have htext : text (.refAt kind name (p :: ps)) =
          name ++ "[" ++ ", ".intercalate (texts (p :: ps)) ++ "]" := by
        rw [text, texts]
      rw [chars, htext]
      simp only [String.toList_append, hlist]
      simp [word, after]
  | unary op e => cases op <;> simp [chars, text, word, after, UnaryOp.lead, UnaryOp.name]
  | binary op l r => simp [chars, text, word, after]
  | aggregate a =>
    obtain ⟨op, body, ranges, condition⟩ := a
    have hlist : (", ".intercalate (ranges.map fun r => r.index ++ " in " ++ r.set)).toList =
        listed Range.chars ranges := by
      rw [toList_intercalate_map]
      congr 1
      funext r
      simp [Range.chars]
    rw [chars, text, Aggregation.text]
    simp only [String.toList_append, hlist, Condition.toList_suffix]
    simp [word, after, chars]

/-- What follows the first word is nothing or begins with a bracket that opens. -/
theorem after_cases (e : Expr) :
    (e.opener = none ∧ e.after = []) ∨
      ∃ c t, e.opener = some c ∧ e.after = c :: t ∧ isCloser c = false ∧ isDelimiter c = true := by
  cases e with
  | number n => exact .inl ⟨rfl, rfl⟩
  | string s => exact .inl ⟨rfl, rfl⟩
  | indexVar name => exact .inl ⟨rfl, rfl⟩
  | ref kind name => exact .inl ⟨rfl, rfl⟩
  | refAt kind name positions =>
    cases positions with
    | nil => exact .inl ⟨rfl, rfl⟩
    | cons p ps => exact .inr ⟨'[', _, rfl, rfl, rfl, rfl⟩
  | unary op e => exact .inr ⟨'(', _, rfl, rfl, rfl, rfl⟩
  | binary op l r => exact .inr ⟨'(', _, rfl, rfl, rfl, rfl⟩
  | aggregate a => exact .inr ⟨'(', _, rfl, rfl, rfl, rfl⟩

variable {e d : Expr} {s s' : List Char}

theorem stops_after (e : Expr) (hs : Closes s) : Stops (e.after ++ s) := by
  obtain ⟨-, hnil⟩ | ⟨c, t, -, hafter, -, hc⟩ := e.after_cases
  · rw [hnil]
    exact hs.stops
  · rw [hafter]
    exact stops_cons hc _

/-- No closer comes where a bracket opens. -/
theorem opener_eq (hs : Closes s) (hs' : Closes s') (h : e.after ++ s = d.after ++ s') :
    e.opener = d.opener := by
  obtain ⟨he, hnil⟩ | ⟨c, t, he, hafter, hc, -⟩ := e.after_cases <;>
  obtain ⟨hd, hnil'⟩ | ⟨c', t', hd, hafter', hc', -⟩ := d.after_cases
  · rw [he, hd]
  · rw [hnil, hafter'] at h
    rw [hs c' _ h] at hc'
    cases hc'
  · rw [hafter, hnil'] at h
    rw [hs' c _ h.symm] at hc
    cases hc
  · rw [hafter, hafter'] at h
    rw [he, hd, (List.cons.inj h).1]

theorem after_of_opener (h : e.opener = none) : e.after = [] := by
  obtain ⟨-, hnil⟩ | ⟨c, t, hc, -⟩ := e.after_cases
  · exact hnil
  · rw [h] at hc
    cases hc

theorem isWord_word (h : e.Legible) : IsWord e.word := by
  cases e with
  | number n => exact Number.isWord_text (finite_number.mp h.finite)
  | string s => exact isWord_of_isIdentifier (h.labels _ List.mem_cons_self)
  | indexVar name => exact isWord_of_isIdentifier (h.labels _ List.mem_cons_self)
  | ref kind name => exact isWord_of_isIdentifier (h.labels _ List.mem_cons_self)
  | refAt kind name positions => exact isWord_of_isIdentifier (h.labels _ List.mem_cons_self)
  | unary op e => exact nofun
  | binary op l r => exact nofun
  | aggregate a =>
    rw [word]
    cases a.op <;> simp [IsWord, Aggregator.name, isDelimiter]

/-- The first word of a display and the bracket behind it are determined by the text that it
begins. -/
theorem front_inj (he : e.Legible) (hd : d.Legible) (hs : Closes s) (hs' : Closes s')
    (h : e.chars ++ s = d.chars ++ s') :
    e.word = d.word ∧ e.opener = d.opener ∧ e.after ++ s = d.after ++ s' := by
  rw [chars_eq, chars_eq, List.append_assoc, List.append_assoc] at h
  obtain ⟨hword, hafter⟩ :=
    word_inj (isWord_word he) (isWord_word hd) (e.stops_after hs) (d.stops_after hs') h
  exact ⟨hword, opener_eq hs hs' hafter, hafter⟩

/-- Without a bracket, an expression is a number or is shown by a name. -/
theorem leaf_cases (he : e.Legible) (h : e.opener = none) :
    (∃ n, e = .number n ∧ n.Finite) ∨
      ∃ name, e.erase = .string name ∧ e.word = name.toList ∧ isIdentifier name = true := by
  have hname (name : String) (hmem : name ∈ e.labels) : isIdentifier name = true :=
    he.labels name hmem
  cases e with
  | number n => exact .inl ⟨n, rfl, finite_number.mp he.finite⟩
  | string s => exact .inr ⟨s, rfl, rfl, hname s List.mem_cons_self⟩
  | indexVar name => exact .inr ⟨name, rfl, rfl, hname name List.mem_cons_self⟩
  | ref kind name => exact .inr ⟨name, rfl, rfl, hname name List.mem_cons_self⟩
  | refAt kind name positions =>
    cases positions with
    | nil => exact .inr ⟨name, rfl, rfl, hname name List.mem_cons_self⟩
    | cons p ps => cases h
  | unary op e => cases h
  | binary op l r => cases h
  | aggregate a => cases h

private theorem number_ne_name {n : Number} (hn : n.Finite) {name : String}
    (hname : isIdentifier name = true) : n.text.toList ≠ name.toList := by
  intro h
  obtain ⟨c, t, hc, hdigit⟩ := Number.text_head hn
  obtain ⟨-, c', t', hc', hnodigit, hminus⟩ := isIdentifier_cases hname
  rw [hc, hc'] at h
  obtain ⟨rfl, -⟩ := List.cons.inj h
  rcases hdigit with hdigit | hdigit
  · rw [hnodigit] at hdigit
    cases hdigit
  · exact hminus hdigit

theorem erase_of_leaf (he : e.Legible) (hd : d.Legible) (hleaf : e.opener = none)
    (hleaf' : d.opener = none) (hword : e.word = d.word) : e.erase = d.erase := by
  obtain ⟨n, rfl, hn⟩ | ⟨name, herase, hname, hid⟩ := leaf_cases he hleaf <;>
  obtain ⟨n', rfl, hn'⟩ | ⟨name', herase', hname', hid'⟩ := leaf_cases hd hleaf'
  · rw [Number.text_inj hn hn' (String.toList_inj.mp hword)]
  · rw [hname'] at hword
    exact absurd hword (number_ne_name hn hid')
  · rw [hname] at hword
    exact absurd hword.symm (number_ne_name hn' hid)
  · rw [hname, hname', String.toList_inj] at hword
    rw [herase, herase', hword]

theorem group_cases (h : d.opener = some '(') (hword : d.word = []) :
    (∃ op e, d = .unary op e) ∨ ∃ op l r, d = .binary op l r := by
  cases d with
  | unary op e => exact .inl ⟨op, e, rfl⟩
  | binary op l r => exact .inr ⟨op, l, r, rfl⟩
  | refAt kind name positions => cases positions <;> simp [opener] at h
  | aggregate a =>
    rw [word] at hword
    cases hop : a.op <;> simp [hop, Aggregator.name] at hword
  | _ => cases h

theorem exists_aggregate (h : d.opener = some '(') (hword : d.word ≠ []) :
    ∃ a, d = .aggregate a := by
  cases d with
  | aggregate a => exact ⟨a, rfl⟩
  | refAt kind name positions => cases positions <;> simp [opener] at h
  | unary op e => exact absurd rfl hword
  | binary op l r => exact absurd rfl hword
  | _ => cases h

theorem exists_refAt (h : d.opener = some '[') :
    ∃ kind name p ps, d = .refAt kind name (p :: ps) := by
  cases d with
  | refAt kind name positions =>
    cases positions with
    | nil => cases h
    | cons p ps => exact ⟨kind, name, p, ps, rfl⟩
  | unary op e => simp [opener] at h
  | binary op l r => simp [opener] at h
  | aggregate a => simp [opener] at h
  | _ => cases h

/-- Only a number begins with a minus sign. -/
theorem word_ne_minus (he : e.Legible) {c : Char} (h : e.opener = some c) (t : List Char) :
    e.word ≠ '-' :: t := by
  cases e with
  | refAt kind name positions =>
    obtain ⟨-, c, u, hc, -, hminus⟩ := isIdentifier_cases (he.labels name List.mem_cons_self)
    intro hword
    rw [word, hc] at hword
    exact hminus (List.cons.inj hword).1
  | unary op e => exact nofun
  | binary op l r => exact nofun
  | aggregate a =>
    rw [word]
    cases a.op <;> simp [Aggregator.name]
  | _ => cases h

/-- What two displays begin with after a sign is never a left operand with its operator. -/
theorem unary_ne_binary (he : e.Legible) (hd : d.Legible) (op : UnaryOp) (op' : BinaryOp)
    (t t' : List Char) :
    op.lead ++ (e.chars ++ ')' :: t) ≠ d.chars ++ ' ' :: (op'.symbol.toList ++ ' ' :: t') := by
  intro h
  have hsymbol : IsWord op'.symbol.toList := by
    cases op' <;> simp [IsWord, BinaryOp.symbol, isDelimiter]
  have hclose : Closes (')' :: t) := closes_cons rfl t
  have hspace : Closes (' ' :: (op'.symbol.toList ++ ' ' :: t')) := closes_cons rfl _
  have hnospace (u : List Char) : e.after ++ ')' :: t ≠ ' ' :: u := by
    intro hu
    obtain ⟨-, hnil⟩ | ⟨c, v, -, hafter, hc, -⟩ := e.after_cases
    · rw [hnil] at hu
      exact absurd (List.cons.inj hu).1 (by decide)
    · rw [hafter] at hu
      rw [(List.cons.inj hu).1] at hc
      cases hc
  rw [chars_eq, chars_eq, List.append_assoc, List.append_assoc] at h
  by_cases hop : op = .negate
  · subst hop
    have hminus : IsWord ('-' :: e.word) := by
      intro c hc
      rcases List.mem_cons.mp hc with rfl | hc
      · rfl
      · exact isWord_word he c hc
    obtain ⟨hword, hafter⟩ := word_inj hminus (isWord_word hd) (e.stops_after hclose)
      (d.stops_after hspace) h
    have hopener := opener_eq hclose hspace hafter
    cases hd' : d.opener with
    | none =>
      rw [after_of_opener hd'] at hafter
      exact hnospace _ hafter
    | some c => exact word_ne_minus hd hd' _ hword.symm
  · have hlead : op.lead = op.name.toList ++ [' '] := by
      cases op <;> first | rfl | exact absurd rfl hop
    have hname : IsWord op.name.toList := by
      cases op <;> simp [IsWord, UnaryOp.name, isDelimiter]
    rw [hlead, List.append_assoc] at h
    obtain ⟨-, hafter⟩ := word_inj hname (isWord_word hd) (stops_cons rfl _) (d.stops_after hspace) h
    obtain ⟨-, hnil⟩ | ⟨c, v, -, hopen, hc, -⟩ := d.after_cases
    · rw [hnil] at hafter
      have hrest := (List.cons.inj hafter).2
      exact hnospace _ (word_inj (isWord_word he) hsymbol (e.stops_after hclose)
        (stops_cons rfl _) hrest).2
    · rw [hopen] at hafter
      rw [← (List.cons.inj hafter).1] at hc
      cases hc

/-- Whether the display of an expression, closed by what follows, determines it up to erasure. -/
def Readable (e : Expr) : Prop :=
  e.Legible → ∀ d : Expr, d.Legible → ∀ s s' : List Char, Closes s → Closes s' →
    e.chars ++ s = d.chars ++ s' → e.erase = d.erase ∧ s = s'

theorem readable_of_leaf (h : e.opener = none) : e.Readable := by
  intro he d hd s s' hs hs' htext
  obtain ⟨hword, hopener, hafter⟩ := front_inj he hd hs hs' htext
  rw [h] at hopener
  rw [after_of_opener h, after_of_opener hopener.symm] at hafter
  exact ⟨erase_of_leaf he hd h hopener.symm hword, hafter⟩

end Expr

theorem UnaryOp.lead_inj {op op' : UnaryOp} {e e' : Expr} {t t' : List Char}
    (h : op.lead ++ (e.chars ++ t) = op'.lead ++ (e'.chars ++ t')) :
    op = op' ∧ e.chars ++ t = e'.chars ++ t' := by
  cases op <;> cases op' <;> simp_all [lead, name]

theorem BinaryOp.symbol_inj {op op' : BinaryOp} {t t' : List Char}
    (h : op.symbol.toList ++ ' ' :: t = op'.symbol.toList ++ ' ' :: t') : op = op' ∧ t = t' := by
  cases op <;> cases op' <;> simp_all [BinaryOp.symbol]

theorem Relation.symbol_inj {relation relation' : Relation} {t t' : List Char}
    (h : relation.symbol.toList ++ ' ' :: t = relation'.symbol.toList ++ ' ' :: t') :
    relation = relation' ∧ t = t' := by
  cases relation <;> cases relation' <;> simp_all [Relation.symbol]

theorem Aggregator.toList_name_inj {op op' : Aggregator} (h : op.name.toList = op'.name.toList) :
    op = op' := by
  cases op <;> cases op' <;> simp_all [Aggregator.name]

section

variable {s s' : List Char}

/-- A comparison is determined by what it displays when its sides are. -/
theorem Comparison.chars_inj {c d : Comparison Expr} (hl : c.left.Readable) (hr : c.right.Readable)
    (hc : c.Legible) (hd : d.Legible) (hs : Closes s) (hs' : Closes s')
    (h : c.chars ++ s = d.chars ++ s') : erase c = erase d ∧ s = s' := by
  obtain ⟨form, l, relation, r⟩ := c
  obtain ⟨form', l', relation', r'⟩ := d
  simp only [chars, List.append_assoc, List.cons_append] at h
  obtain ⟨hleft, hsymbol⟩ := hl hc.1 l' hd.1 _ _ (closes_cons rfl _) (closes_cons rfl _) h
  obtain ⟨hrelation, hrest⟩ := Relation.symbol_inj (List.cons.inj hsymbol).2
  obtain ⟨hright, hend⟩ := hr hc.2 r' hd.2 _ _ hs hs' hrest
  exact ⟨by rw [erase, erase, hleft, hrelation, hright], hend⟩

theorem Condition.chars_inj {c d : Option (Comparison Expr)}
    (hread : ∀ a, c = some a → a.left.Readable ∧ a.right.Readable)
    (hc : ∀ a, c = some a → a.Legible) (hd : ∀ a, d = some a → a.Legible)
    (hs : Closes s) (hs' : Closes s') (hspace : ∀ t, s ≠ ' ' :: t) (hspace' : ∀ t, s' ≠ ' ' :: t)
    (h : chars c ++ s = chars d ++ s') : erase c = erase d ∧ s = s' := by
  cases c with
  | none =>
    cases d with
    | none => exact ⟨rfl, h⟩
    | some b => exact absurd h (hspace _)
  | some a =>
    cases d with
    | none => exact absurd h.symm (hspace' _)
    | some b =>
      obtain ⟨hl, hr⟩ := hread a rfl
      have htext : a.chars ++ s = b.chars ++ s' := by simpa [chars] using h
      obtain ⟨hcomparison, hend⟩ := Comparison.chars_inj hl hr (hc a rfl) (hd b rfl) hs hs' htext
      exact ⟨by rw [erase, erase, hcomparison], hend⟩

theorem Range.chars_inj {r r' : Range}
    (hr : isIdentifier r.index = true ∧ isIdentifier r.set = true)
    (hr' : isIdentifier r'.index = true ∧ isIdentifier r'.set = true) (hs : Closes s)
    (hs' : Closes s') (h : r.chars ++ s = r'.chars ++ s') : r = r' ∧ s = s' := by
  obtain ⟨i, set⟩ := r
  obtain ⟨i', set'⟩ := r'
  simp only [chars, List.append_assoc, List.cons_append] at h
  obtain ⟨hindex, hrest⟩ := word_inj (isWord_of_isIdentifier hr.1) (isWord_of_isIdentifier hr'.1)
    (stops_cons rfl _) (stops_cons rfl _) h
  simp only [List.cons.injEq, true_and] at hrest
  obtain ⟨hset, hend⟩ := word_inj (isWord_of_isIdentifier hr.2) (isWord_of_isIdentifier hr'.2)
    hs.stops hs'.stops hrest
  refine ⟨?_, hend⟩
  congr 1
  · exact String.toList_inj.mp hindex
  · exact String.toList_inj.mp hset

theorem Range.not_closes {r : Range} (h : isIdentifier r.index = true) (t : List Char) :
    ¬ Closes (r.chars ++ t) := by
  obtain ⟨hword, c, u, hc, -⟩ := isIdentifier_cases h
  intro hcloses
  have hcloser := hcloses c _ (by rw [chars, hc]; rfl)
  have hdelimiter := hword c (by rw [hc]; exact List.mem_cons_self)
  rw [isDelimiter_of_isCloser hcloser] at hdelimiter
  cases hdelimiter

/-- Ranges, of which there may be none, are determined by what they display. -/
theorem Range.listed_inj {rs rs' : List Range}
    (h : ∀ r ∈ rs, isIdentifier r.index = true ∧ isIdentifier r.set = true)
    (h' : ∀ r ∈ rs', isIdentifier r.index = true ∧ isIdentifier r.set = true)
    (hs : Closes s) (hs' : Closes s') (hcomma : ∀ t, s ≠ ',' :: t) (hcomma' : ∀ t, s' ≠ ',' :: t)
    (htext : listed chars rs ++ s = listed chars rs' ++ s') : rs = rs' ∧ s = s' := by
  cases rs with
  | nil =>
    cases rs' with
    | nil => exact ⟨rfl, htext⟩
    | cons r rs' =>
      have hstart := not_closes (h' r List.mem_cons_self).1 (further chars rs' ++ s')
      rw [listed, listed, List.nil_append, List.append_assoc] at htext
      exact absurd (htext ▸ hs) hstart
  | cons r rs =>
    cases rs' with
    | nil =>
      have hstart := not_closes (h r List.mem_cons_self).1 (further chars rs ++ s)
      rw [listed, listed, List.nil_append, List.append_assoc] at htext
      exact absurd (htext ▸ hs') hstart
    | cons r' rs' =>
      obtain ⟨hkeys, hend⟩ := listed_cons_inj id (fun a ha b hb t t' ht ht' =>
        chars_inj (h a ha) (h' b hb) ht ht') (closes_cons rfl) hs hs' hcomma hcomma' htext
      exact ⟨by simpa using hkeys, hend⟩

end

namespace Expr

/-- The display of an expression, closed by what follows, determines it up to erasure. -/
theorem readable (e : Expr) : e.Readable := by
  induction e with
  | number n => exact readable_of_leaf rfl
  | string s => exact readable_of_leaf rfl
  | indexVar name => exact readable_of_leaf rfl
  | ref kind name => exact readable_of_leaf rfl
  | refAt kind name positions ih =>
    cases positions with
    | nil => exact readable_of_leaf rfl
    | cons p ps =>
      intro he d hd s s' hs hs' htext
      obtain ⟨hword, hopener, hafter⟩ := front_inj he hd hs hs' htext
      obtain ⟨kind', name', p', ps', rfl⟩ := exists_refAt hopener.symm
      have hname : name = name' := String.toList_inj.mp hword
      simp only [after, List.cons_append, List.append_assoc, List.cons.injEq, true_and] at hafter
      obtain ⟨hpositions, hrest⟩ := listed_cons_inj erase
        (fun a ha b hb => ih a ha (he.position ha) b (hd.position hb))
        (closes_cons rfl) (closes_cons rfl _) (closes_cons rfl _) (by simp) (by simp) hafter
      refine ⟨?_, (List.cons.inj hrest).2⟩
      rw [erase, erase, eraseAll_eq_map, eraseAll_eq_map, hpositions, hname]
  | unary op e ih =>
    intro he d hd s s' hs hs' htext
    obtain ⟨hword, hopener, hafter⟩ := front_inj he hd hs hs' htext
    obtain ⟨op', e', rfl⟩ | ⟨op', l, r, rfl⟩ := group_cases hopener.symm hword.symm
    · simp only [after, List.cons_append, List.append_assoc, List.cons.injEq, true_and] at hafter
      obtain ⟨rfl, hrest⟩ := UnaryOp.lead_inj hafter
      obtain ⟨herase, hend⟩ := ih he.operand e' hd.operand _ _ (closes_cons rfl _)
        (closes_cons rfl _) hrest
      exact ⟨by rw [erase, erase, herase], (List.cons.inj hend).2⟩
    · simp only [after, List.cons_append, List.append_assoc, List.cons.injEq, true_and] at hafter
      exact absurd hafter (unary_ne_binary he.operand hd.operands.1 _ _ _ _)
  | binary op l r ihl ihr =>
    intro he d hd s s' hs hs' htext
    obtain ⟨hword, hopener, hafter⟩ := front_inj he hd hs hs' htext
    obtain ⟨op', e', rfl⟩ | ⟨op', l', r', rfl⟩ := group_cases hopener.symm hword.symm
    · simp only [after, List.cons_append, List.append_assoc, List.cons.injEq, true_and] at hafter
      exact absurd hafter.symm (unary_ne_binary hd.operand he.operands.1 _ _ _ _)
    · simp only [after, List.cons_append, List.append_assoc, List.cons.injEq, true_and] at hafter
      obtain ⟨hl, hsymbol⟩ := ihl he.operands.1 l' hd.operands.1 _ _ (closes_cons rfl _)
        (closes_cons rfl _) hafter
      obtain ⟨hop, hrest⟩ := BinaryOp.symbol_inj (List.cons.inj hsymbol).2
      obtain ⟨hr, hend⟩ := ihr he.operands.2 r' hd.operands.2 _ _ (closes_cons rfl _)
        (closes_cons rfl _) hrest
      exact ⟨by rw [erase, erase, hl, hop, hr], (List.cons.inj hend).2⟩
  | aggregate op body ranges condition ih ihc =>
    intro he d hd s s' hs hs' htext
    obtain ⟨hword, hopener, hafter⟩ := front_inj he hd hs hs' htext
    have hne : d.word ≠ [] := by
      rw [← hword, word]
      cases op <;> simp [Aggregator.name]
    obtain ⟨⟨op', body', ranges', condition'⟩, rfl⟩ := exists_aggregate hopener.symm hne
    have hop : op = op' := Aggregator.toList_name_inj hword
    obtain ⟨hbody, hranges, hcondition⟩ := he.aggregate
    obtain ⟨hbody', hranges', hcondition'⟩ := hd.aggregate
    simp only [after, List.cons_append, List.append_assoc, List.cons.injEq, true_and] at hafter
    obtain ⟨herase, hfor⟩ := ih hbody body' hbody' _ _ (closes_cons rfl _) (closes_cons rfl _) hafter
    simp only [List.cons.injEq, true_and] at hfor
    have hcloses (c : Option (Comparison Expr)) (t : List Char) :
        Closes (Condition.chars c ++ ')' :: t) ∧ ∀ u, Condition.chars c ++ ')' :: t ≠ ',' :: u := by
      cases c with
      | none => exact ⟨closes_cons rfl _, by simp [Condition.chars]⟩
      | some c => exact ⟨closes_cons rfl _, by simp [Condition.chars]⟩
    obtain ⟨rfl, hif⟩ := Range.listed_inj hranges hranges' (hcloses _ _).1 (hcloses _ _).1
      (hcloses _ _).2 (hcloses _ _).2 hfor
    obtain ⟨hcond, hend⟩ := Condition.chars_inj ihc hcondition hcondition' (closes_cons rfl _)
      (closes_cons rfl _) (by simp) (by simp) hif
    exact ⟨by rw [erase, erase, Aggregation.erase, Aggregation.erase, hop, herase, hcond],
      (List.cons.inj hend).2⟩

end Expr

end Milp
