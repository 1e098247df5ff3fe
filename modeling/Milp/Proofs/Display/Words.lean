import Mathlib

/-! Words and lists in displayed text. A word ends where a delimiter or the end of the text follows,
so that two texts that begin with words begin with the same word or differ. Items with commas between
them are told apart when each of them is, whatever closes it. -/
namespace Milp

def isDelimiter (c : Char) : Bool := c ∈ [' ', ',', '(', ')', '[', ']']

/-- The delimiters that can follow a complete expression. -/
def isCloser (c : Char) : Bool := c ∈ [' ', ',', ')', ']']

theorem isDelimiter_of_isCloser {c : Char} (h : isCloser c = true) : isDelimiter c = true := by
  simp only [isCloser, isDelimiter, decide_eq_true_eq, List.mem_cons, List.not_mem_nil] at h ⊢
  tauto

/-- What sets a character apart from every delimiter. -/
theorem isDelimiter_eq_false {p : Char → Bool} {c : Char}
    (h : [' ', ',', '(', ')', '[', ']'].any p = false) (hc : p c = true) :
    isDelimiter c = false := by
  rw [Bool.eq_false_iff]
  intro hd
  exact List.any_eq_false.mp h c (of_decide_eq_true hd) hc

theorem not_isDelimiter_of_isDigit {c : Char} (h : c.isDigit = true) : isDelimiter c = false :=
  isDelimiter_eq_false rfl h

def IsWord (w : List Char) : Prop := ∀ c ∈ w, isDelimiter c = false

/-- Whether a word in front of the text is complete. -/
def Stops (s : List Char) : Prop := ∀ c t, s = c :: t → isDelimiter c = true

/-- Whether an expression in front of the text is complete. -/
def Closes (s : List Char) : Prop := ∀ c t, s = c :: t → isCloser c = true

theorem closes_nil : Closes [] := nofun

theorem closes_cons {c : Char} (h : isCloser c = true) (s : List Char) : Closes (c :: s) := by
  rintro _ _ ⟨⟩
  exact h

theorem stops_cons {c : Char} (h : isDelimiter c = true) (s : List Char) : Stops (c :: s) := by
  rintro _ _ ⟨⟩
  exact h

theorem Closes.stops {s : List Char} (h : Closes s) : Stops s := fun c t hs =>
  isDelimiter_of_isCloser (h c t hs)

/-- A complete word is determined by the text that it begins. -/
theorem word_inj {w w' s s' : List Char} (hw : IsWord w) (hw' : IsWord w') (hs : Stops s)
    (hs' : Stops s') (h : w ++ s = w' ++ s') : w = w' ∧ s = s' := by
  induction w generalizing w' with
  | nil =>
    cases w' with
    | nil => exact ⟨rfl, h⟩
    | cons c w' =>
      have hc := hs c _ h
      rw [hw' c List.mem_cons_self] at hc
      cases hc
  | cons c w ih =>
    cases w' with
    | nil =>
      have hc := hs' c _ h.symm
      rw [hw c List.mem_cons_self] at hc
      cases hc
    | cons c' w' =>
      obtain ⟨rfl, htail⟩ := List.cons.inj h
      obtain ⟨rfl, rfl⟩ := ih (fun d hd => hw d (List.mem_cons_of_mem _ hd))
        (fun d hd => hw' d (List.mem_cons_of_mem _ hd)) htail
      exact ⟨rfl, rfl⟩

section

variable {α β : Type} {P : List Char → Prop}

def further (text : α → List Char) (as : List α) : List Char :=
  as.flatMap fun a => ',' :: ' ' :: text a

theorem further_cons (text : α → List Char) (a : α) (as : List α) (s : List Char) :
    further text (a :: as) ++ s = ',' :: ' ' :: (text a ++ (further text as ++ s)) := by
  simp [further]

def listed (text : α → List Char) : List α → List Char
  | [] => []
  | a :: as => text a ++ further text as

/-- What follows an item of a list is a further item, or what follows the list. -/
theorem of_further (hnext : ∀ t, P (',' :: t)) (text : α → List Char) (as : List α) {s : List Char}
    (hs : P s) : P (further text as ++ s) := by
  cases as with
  | nil => exact hs
  | cons a as =>
    rw [further_cons]
    exact hnext _

/-- Items are determined by the text of a list that no comma follows, when each item is by the text
that it begins, as long as a comma or the end of the list closes it. -/
theorem further_inj {text : α → List Char} (key : α → β) {as bs : List α}
    (hread : ∀ a ∈ as, ∀ b ∈ bs, ∀ s s', P s → P s' → text a ++ s = text b ++ s' →
      key a = key b ∧ s = s')
    (hnext : ∀ t, P (',' :: t)) {s s' : List Char} (hs : P s) (hs' : P s')
    (hcomma : ∀ t, s ≠ ',' :: t) (hcomma' : ∀ t, s' ≠ ',' :: t)
    (h : further text as ++ s = further text bs ++ s') : as.map key = bs.map key ∧ s = s' := by
  induction as generalizing bs with
  | nil =>
    cases bs with
    | nil => exact ⟨rfl, h⟩
    | cons b bs =>
      rw [further_cons] at h
      exact absurd h (hcomma _)
  | cons a as ih =>
    cases bs with
    | nil =>
      rw [further_cons] at h
      exact absurd h.symm (hcomma' _)
    | cons b bs =>
      rw [further_cons, further_cons] at h
      obtain ⟨hkey, hrest⟩ := hread a List.mem_cons_self b List.mem_cons_self _ _
        (of_further hnext text as hs) (of_further hnext text bs hs')
        (List.cons.inj (List.cons.inj h).2).2
      obtain ⟨hkeys, hend⟩ := ih (fun c hc d hd =>
        hread c (List.mem_cons_of_mem _ hc) d (List.mem_cons_of_mem _ hd)) hrest
      exact ⟨by rw [List.map_cons, List.map_cons, hkey, hkeys], hend⟩

theorem listed_cons_inj {text : α → List Char} (key : α → β) {a b : α} {as bs : List α}
    (hread : ∀ c ∈ a :: as, ∀ d ∈ b :: bs, ∀ s s', P s → P s' → text c ++ s = text d ++ s' →
      key c = key d ∧ s = s')
    (hnext : ∀ t, P (',' :: t)) {s s' : List Char} (hs : P s) (hs' : P s')
    (hcomma : ∀ t, s ≠ ',' :: t) (hcomma' : ∀ t, s' ≠ ',' :: t)
    (h : listed text (a :: as) ++ s = listed text (b :: bs) ++ s') :
    (a :: as).map key = (b :: bs).map key ∧ s = s' := by
  rw [listed, listed, List.append_assoc, List.append_assoc] at h
  obtain ⟨hkey, hrest⟩ := hread a List.mem_cons_self b List.mem_cons_self _ _
    (of_further hnext text as hs) (of_further hnext text bs hs') h
  obtain ⟨hkeys, hend⟩ := further_inj key (fun c hc d hd =>
    hread c (List.mem_cons_of_mem _ hc) d (List.mem_cons_of_mem _ hd)) hnext hs hs' hcomma hcomma'
    hrest
  exact ⟨by rw [List.map_cons, List.map_cons, hkey, hkeys], hend⟩

theorem toList_intercalate_map (text : α → String) (as : List α) :
    (", ".intercalate (as.map text)).toList = listed (fun a => (text a).toList) as := by
  rw [String.toList_intercalate, List.map_map]
  cases as with
  | nil => rfl
  | cons a as =>
    rw [listed]
    induction as generalizing a with
    | nil => simp [further]
    | cons b as ih =>
      have hrest := ih b
      rw [List.map_cons] at hrest ⊢
      rw [List.map_cons, List.intercalate_cons_cons, hrest]
      simp [further]

end

end Milp
