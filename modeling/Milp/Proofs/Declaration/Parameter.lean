import Milp.Declaration.StoredParameter
import Milp.Proofs.Failure
import Milp.Proofs.Registry

/-! Parameters and their tables. Filling a table refuses the first entry that does not fit, and a
table that was filled gives the value of the one entry with a tuple. A scalar has a value at every
tuple, but only a lookup of its value asks for the declared arity. -/
namespace Milp

/-! ### Entries that make up a table -/

/-- Whether entries make up a table: each has one position per index set, and no tuple is listed
twice. -/
structure Tabular (arity : ℕ) (entries : List Entry) : Prop where
  arity : ∀ e ∈ entries, e.index.length = arity
  distinct : (entries.map Entry.index).Nodup

/-- The failure of an entry that comes after others. Its arity counts before its repetition. -/
inductive Entry.Offends (name : String) (arity : ℕ) (before : List Entry) (e : Entry) : Error → Prop
  | arity : e.index.length ≠ arity →
      Offends name arity before e (.arity .parameter name arity e.index.length [])
  | repeated : e.index.length = arity → (∃ d ∈ before, d.index = e.index) →
      Offends name arity before e (.repeatedIndex name e.index)

/-- Whether a failure is that of the first entry that does not fit to the ones before it. -/
def FirstOffence (name : String) (arity : ℕ) (entries : List Entry) (error : Error) : Prop :=
  ∃ before e after, entries = before ++ e :: after ∧ Tabular arity before ∧
    e.Offends name arity before error

section

variable {name : String} {arity : ℕ} {before entries : List Entry} {e : Entry} {error : Error}

theorem tabular_nil (arity : ℕ) : Tabular arity [] := ⟨nofun, List.nodup_nil⟩

theorem Tabular.of_append (h : Tabular arity (before ++ entries)) : Tabular arity before where
  arity e he := h.arity e (List.mem_append_left _ he)
  distinct := by
    have hdistinct := h.distinct
    rw [List.map_append] at hdistinct
    exact hdistinct.of_append_left

theorem tabular_concat : Tabular arity (before ++ [e]) ↔
    Tabular arity before ∧ e.index.length = arity ∧ ∀ d ∈ before, d.index ≠ e.index := by
  constructor
  · intro h
    refine ⟨h.of_append, h.arity e (by simp), fun d hd he => ?_⟩
    have hdistinct := h.distinct
    rw [List.map_append, List.nodup_append] at hdistinct
    exact hdistinct.2.2 _ (List.mem_map_of_mem hd) _ List.mem_cons_self he
  · rintro ⟨hbefore, hlen, hfresh⟩
    refine ⟨fun d hd => ?_, ?_⟩
    · rcases List.mem_append.mp hd with hd | hd
      · exact hbefore.arity d hd
      · rwa [List.mem_singleton.mp hd]
    · rw [List.map_append, List.nodup_append]
      refine ⟨hbefore.distinct, List.nodup_singleton _, fun t ht u hu => ?_⟩
      obtain ⟨d, hd, rfl⟩ := List.mem_map.mp ht
      rw [List.mem_singleton.mp hu]
      exact hfresh d hd

/-- An entry fits to the ones before it unless it offends. -/
theorem tabular_concat_or_offends (name : String) (h : Tabular arity before) (e : Entry) :
    Tabular arity (before ++ [e]) ∨ ∃ error, e.Offends name arity before error := by
  by_cases hlen : e.index.length = arity
  · by_cases hrepeated : ∃ d ∈ before, d.index = e.index
    · exact .inr ⟨_, .repeated hlen hrepeated⟩
    · exact .inl (tabular_concat.mpr ⟨h, hlen, fun d hd he => hrepeated ⟨d, hd, he⟩⟩)
  · exact .inr ⟨_, .arity hlen⟩

theorem Entry.Offends.not_tabular (h : e.Offends name arity before error) :
    ¬ Tabular arity (before ++ [e]) := by
  rw [tabular_concat]
  rintro ⟨-, hlen, hfresh⟩
  cases h with
  | arity hne => exact hne hlen
  | repeated _ hrepeated =>
    obtain ⟨d, hd, he⟩ := hrepeated
    exact hfresh d hd he

/-- Entries make up a table, or one of them is the first that offends. -/
theorem tabular_or_firstOffence (name : String) (arity : ℕ) (entries : List Entry) :
    Tabular arity entries ∨ ∃ error, FirstOffence name arity entries error := by
  induction entries using List.reverseRecOn with
  | nil => exact .inl (tabular_nil arity)
  | append_singleton entries e ih =>
    rcases ih with h | ⟨error, before, d, after, rfl, hbefore, hd⟩
    · rcases tabular_concat_or_offends name h e with h | ⟨error, he⟩
      · exact .inl h
      · exact .inr ⟨error, entries, e, [], rfl, h, he⟩
    · exact .inr ⟨error, before, d, after ++ [e], by simp, hbefore, hd⟩

/-! ### Tables -/

namespace ValueTable

def ofEntries (entries : List Entry) : ValueTable :=
  (entries.map fun e => (e.index, e.value)).reverse

theorem ofEntries_concat (entries : List Entry) (e : Entry) :
    ofEntries (entries ++ [e]) = (e.index, e.value) :: ofEntries entries := by
  rw [ofEntries, List.map_append, List.reverse_append]
  rfl

theorem lookup_ofEntries (entries : List Entry) (t : Tuple) :
    (ofEntries entries).lookup t =
      (entries.reverse.find? fun e => e.index == t).map Entry.value := by
  rw [ofEntries, ← List.map_reverse]
  induction entries.reverse with
  | nil => rfl
  | cons e es ih =>
    rw [List.map_cons, List.lookup_cons]
    by_cases h : e.index = t
    · simp [h]
    · have h' : (t == e.index) = false := by simpa using fun he : t = e.index => h he.symm
      rw [h', List.find?_cons_of_neg (by simpa using h)]
      exact ih

theorem isSome_lookup_ofEntries {t : Tuple} :
    ((ofEntries entries).lookup t).isSome = true ↔ ∃ e ∈ entries, e.index = t := by
  simp [lookup_ofEntries]

/-- Where no tuple is listed twice, it does not matter from which end a table is searched. -/
theorem lookup_ofEntries_of_tabular (h : Tabular arity entries) (t : Tuple) :
    (ofEntries entries).lookup t = (entries.find? fun e => e.index == t).map Entry.value := by
  have hreverse : (entries.reverse.map Entry.index).Nodup := by
    rw [List.map_reverse, List.nodup_reverse]
    exact h.distinct
  have hfind : (entries.reverse.find? fun e => e.index == t) =
      entries.find? fun e => e.index == t := by
    refine Option.ext fun e => ?_
    rw [find?_key_eq_some hreverse, find?_key_eq_some h.distinct, List.mem_reverse]
  rw [lookup_ofEntries, hfind]

theorem fill_append (name : String) (arity : ℕ) (table : ValueTable) (xs ys : List Entry) :
    fill name arity table (xs ++ ys) =
      (fill name arity table xs >>= fun table => fill name arity table ys) := by
  induction xs generalizing table with
  | nil => rfl
  | cons x xs ih =>
    rw [List.cons_append, fill, fill]
    split
    · rfl
    · split
      · rfl
      · exact ih _

/-- An entry that fits goes into the table. -/
theorem fill_fitting (name : String) (h : Tabular arity (before ++ [e])) :
    fill name arity (ofEntries before) [e] = .ok (ofEntries (before ++ [e])) := by
  obtain ⟨-, hlen, hfresh⟩ := tabular_concat.mp h
  have hnone : (ofEntries before).lookup e.index = none := by
    rw [← Option.not_isSome_iff_eq_none, isSome_lookup_ofEntries]
    rintro ⟨d, hd, he⟩
    exact hfresh d hd he
  rw [fill, if_neg (not_not.mpr hlen), insert, hnone, ofEntries_concat]
  rfl

/-- An entry that offends is refused, whatever follows it. -/
theorem fill_offending (h : e.Offends name arity before error) (after : List Entry) :
    fill name arity (ofEntries before) (e :: after) = .error error := by
  rw [fill]
  cases h with
  | arity hne => rw [if_pos hne]
  | repeated hlen hrepeated =>
    obtain ⟨v, hv⟩ := Option.isSome_iff_exists.mp (isSome_lookup_ofEntries.mpr hrepeated)
    rw [if_neg (not_not.mpr hlen), insert, hv]

theorem fill_of_tabular (name : String) (h : Tabular arity entries) :
    fill name arity [] entries = .ok (ofEntries entries) := by
  induction entries using List.reverseRecOn with
  | nil => rfl
  | append_singleton entries e ih =>
    rw [fill_append, ih h.of_append, ok_bind]
    exact fill_fitting name h

theorem fill_of_firstOffence (h : FirstOffence name arity entries error) :
    fill name arity [] entries = .error error := by
  obtain ⟨before, e, after, rfl, hbefore, he⟩ := h
  rw [fill_append, fill_of_tabular name hbefore, ok_bind]
  exact fill_offending he after

theorem fill_eq_ok {table : ValueTable} : fill name arity [] entries = .ok table ↔
    Tabular arity entries ∧ table = ofEntries entries := by
  rcases tabular_or_firstOffence name arity entries with h | ⟨error, h⟩
  · rw [fill_of_tabular name h, Except.ok.injEq, eq_comm]
    exact ⟨fun he => ⟨h, he⟩, And.right⟩
  · rw [fill_of_firstOffence h]
    refine iff_of_false nofun fun htabular => ?_
    obtain ⟨before, e, after, rfl, -, he⟩ := h
    rw [List.append_cons] at htabular
    exact he.not_tabular htabular.1.of_append

theorem fill_eq_error : fill name arity [] entries = .error error ↔
    FirstOffence name arity entries error := by
  refine ⟨fun h => ?_, fill_of_firstOffence⟩
  rcases tabular_or_firstOffence name arity entries with htabular | ⟨first, hfirst⟩
  · rw [fill_of_tabular name htabular] at h
    cases h
  · rw [fill_of_firstOffence hfirst] at h
    cases h
    exact hfirst

/-- Checking entries against the tuples that were seen is filling a table that holds them. -/
theorem checkEntries_eq (name : String) (arity : ℕ) (table : ValueTable) (entries : List Entry) :
    checkEntries name arity (table.map Prod.fst) entries =
      (fill name arity table entries).map fun _ => () := by
  induction entries generalizing table with
  | nil => rfl
  | cons e es ih =>
    have hseen : e.index ∈ table.map Prod.fst ↔ (table.lookup e.index).isSome = true := by
      rw [List.lookup_isSome_iff, List.mem_map]
      exact exists_congr fun p => and_congr_right fun _ => by rw [beq_iff_eq, eq_comm]
    rw [checkEntries, fill]
    split
    · rfl
    · cases h : table.lookup e.index with
      | some v =>
        rw [if_pos (hseen.mpr (by rw [h]; rfl)), insert, h]
        rfl
      | none =>
        rw [if_neg (by rw [hseen, h]; simp), insert, h]
        exact ih ((e.index, e.value) :: table)

end ValueTable

end

/-! ### What a parameter gives -/

namespace ParameterValues

def entries : ParameterValues → List Entry
  | scalar _ => []
  | listed entries => entries

/-- What parameter data say about a tuple: a scalar has its value there, and a list has the value of
the one entry with that tuple, or none where there is no such entry. -/
inductive Gives (t : Tuple) : ParameterValues → Option Number → Prop
  | scalar (v : Number) : Gives t (.scalar v) (some v)
  | entry {before after : List Entry} {e : Entry} : e.index = t →
      (∀ d ∈ before ++ after, d.index ≠ t) →
      Gives t (.listed (before ++ e :: after)) (some (.float e.value))
  | none {entries : List Entry} : (∀ e ∈ entries, e.index ≠ t) → Gives t (.listed entries) none

end ParameterValues

theorem Parameter.gives_get? {p : Parameter} (h : Tabular p.dimension p.values.entries)
    (t : Tuple) : p.values.Gives t (p.get? t) := by
  obtain ⟨name, indices, values⟩ := p
  cases values with
  | scalar v => exact .scalar v
  | listed entries =>
    rw [get?]
    simp only
    cases hfind : entries.find? fun e => e.index == t with
    | none =>
      refine .none fun e he hindex => ?_
      simpa [hindex] using List.find?_eq_none.mp hfind e he
    | some e =>
      obtain ⟨he, hindex⟩ := (find?_key_eq_some h.distinct).mp hfind
      obtain ⟨before, after, rfl⟩ := List.append_of_mem he
      refine .entry hindex fun d hd hindex' => ?_
      have hdistinct := List.perm_middle.map Entry.index |>.nodup_iff.mp h.distinct
      rw [List.map_cons, List.nodup_cons] at hdistinct
      exact hdistinct.1 (hindex.trans hindex'.symm ▸ List.mem_map_of_mem hd)

namespace StoredParameter

variable {name : String} {indices : List String} {values : ParameterValues} {error : Error}
  {p : StoredParameter}

theorem make_eq_ok : make name indices values = .ok p ↔
    Tabular indices.length values.entries ∧
      p = ⟨⟨name, indices, values⟩, .ofEntries values.entries⟩ := by
  cases values with
  | scalar v =>
    rw [make, Except.ok.injEq, eq_comm]
    exact ⟨fun h => ⟨tabular_nil _, h⟩, And.right⟩
  | listed entries =>
    rw [make, ParameterValues.entries]
    cases h : ValueTable.fill name indices.length [] entries with
    | error e =>
      refine iff_of_false (by simp) fun htabular => ?_
      rw [ValueTable.fill_of_tabular name htabular.1] at h
      cases h
    | ok table =>
      obtain ⟨htabular, rfl⟩ := ValueTable.fill_eq_ok.mp h
      simp only [Except.ok.injEq, htabular, true_and]
      exact eq_comm

theorem make_eq_error : make name indices values = .error error ↔
    FirstOffence name indices.length values.entries error := by
  cases values with
  | scalar v =>
    refine iff_of_false nofun ?_
    rintro ⟨before, e, after, h, -⟩
    simp [ParameterValues.entries] at h
  | listed entries =>
    rw [make, ParameterValues.entries, ← ValueTable.fill_eq_error]
    cases ValueTable.fill name indices.length [] entries <;> simp

/-- A parameter is made with a table exactly where it is made without one. -/
theorem declaration_make (name : String) (indices : List String) (values : ParameterValues) :
    (make name indices values).map declaration = Parameter.make name indices values := by
  cases values with
  | scalar v => rfl
  | listed entries =>
    have hcheck := ValueTable.checkEntries_eq name indices.length [] entries
    rw [make, Parameter.make]
    rw [List.map_nil] at hcheck
    rw [hcheck]
    cases ValueTable.fill name indices.length [] entries <;> rfl

/-- Lookups go through the table and give what a search through the entries gives. -/
theorem get?_of_make (h : make name indices values = .ok p) (t : Tuple) :
    p.get? t = p.declaration.get? t := by
  obtain ⟨htabular, rfl⟩ := make_eq_ok.mp h
  cases values with
  | scalar v => rfl
  | listed entries =>
    rw [get?, Parameter.get?]
    simp only [ParameterValues.entries] at htabular ⊢
    rw [ValueTable.lookup_ofEntries_of_tabular htabular, Option.map_map]
    rfl

theorem value_of_make (h : make name indices values = .ok p) (t : Tuple) :
    p.value t = p.declaration.value t := by
  rw [value, get?_of_make h]
  rfl

end StoredParameter

/-! ### Existence and value -/

theorem Parameter.checkArity_cases (p : Parameter) (t : Tuple) :
    t.length = p.dimension ∧ p.checkArity t = .ok () ∨
      t.length ≠ p.dimension ∧
        p.checkArity t = .error (.arity .parameter p.name p.dimension t.length []) := by
  by_cases h : t.length = p.dimension
  · exact .inl ⟨h, if_neg (not_not.mpr h)⟩
  · exact .inr ⟨h, if_pos h⟩

def Error.IsArity (e : Error) : Prop :=
  ∃ kind name expected found snapshot, e = .arity kind name expected found snapshot

def Error.IsMissingValue (e : Error) : Prop :=
  ∃ name index snapshot, e = .missingValue name index snapshot

namespace StoredParameter

/-- The outcomes of the two lookups at a tuple. They go together, but for a scalar at a tuple of
another arity. -/
theorem lookup_cases (p : StoredParameter) (t : Tuple) :
    (∃ v, p.value t = .ok v ∧ p.hasIndex t = .ok true) ∨
    (∃ e, p.value t = .error e ∧ e.IsMissingValue ∧ p.hasIndex t = .ok false) ∨
    ∃ e, p.value t = .error e ∧ e.IsArity ∧
      (p.declaration.isScalar = true ∧ p.hasIndex t = .ok true ∨
        p.declaration.isScalar = false ∧ p.hasIndex t = .error e) := by
  obtain ⟨⟨name, indices, values⟩, table⟩ := p
  rcases Parameter.checkArity_cases ⟨name, indices, values⟩ t with ⟨_, hcheck⟩ | ⟨_, hcheck⟩
  · simp only [value, hasIndex, hcheck]
    cases values with
    | scalar v => exact .inl ⟨v, rfl, rfl⟩
    | listed entries =>
      cases hlookup : table.lookup t with
      | some x => exact .inl ⟨.float x, by simp [get?, hlookup], by simp [Parameter.isScalar]⟩
      | none =>
        refine .inr (.inl ⟨.missingValue name t [], by simp [get?, hlookup], ⟨_, _, _, rfl⟩, ?_⟩)
        simp [Parameter.isScalar]
  · refine .inr (.inr ⟨_, by rw [value, hcheck], ⟨_, _, _, _, _, rfl⟩, ?_⟩)
    cases values with
    | scalar v => exact .inl ⟨rfl, rfl⟩
    | listed entries => exact .inr ⟨rfl, by rw [hasIndex, hcheck]; rfl⟩

/-- An index is said to exist exactly where its value can be looked up, and for a scalar also where
the lookup fails over the arity; it is said not to exist exactly where the value is missing. The
question itself fails only for a table, over the arity and with the failure of the lookup. -/
theorem hasIndex_agrees (p : StoredParameter) (t : Tuple) :
    (p.hasIndex t = .ok true ↔ (∃ v, p.value t = .ok v) ∨
      p.declaration.isScalar = true ∧ ∃ e, p.value t = .error e ∧ e.IsArity) ∧
    (p.hasIndex t = .ok false ↔ ∃ e, p.value t = .error e ∧ e.IsMissingValue) ∧
    ∀ e, p.hasIndex t = .error e ↔
      p.declaration.isScalar = false ∧ p.value t = .error e ∧ e.IsArity := by
  have hapart {e : Error} (harity : e.IsArity) : ¬ e.IsMissingValue := by
    obtain ⟨_, _, _, _, _, rfl⟩ := harity
    exact nofun
  rcases lookup_cases p t with ⟨v, hvalue, hhas⟩ | ⟨e, hvalue, hmissing, hhas⟩ |
    ⟨e, hvalue, harity, ⟨hscalar, hhas⟩ | ⟨hlisted, hhas⟩⟩
  · simp [hvalue, hhas]
  · have hnot : ¬ e.IsArity := fun harity => hapart harity hmissing
    simp [hvalue, hhas, hmissing, hnot]
  · simp [hvalue, hhas, hscalar, harity, hapart harity]
  · simp [hvalue, hhas, hlisted, harity, hapart harity]

def alpha : StoredParameter := ⟨.ofScalar "alpha" (.int 3), []⟩

/-- Existence and value disagree for a scalar: an index of another arity is said to exist, and its
value cannot be looked up. -/
theorem hasIndex_of_other_arity :
    make "alpha" [] (.scalar (.int 3)) = .ok alpha ∧
    alpha.hasIndex [.int 99] = .ok true ∧
    alpha.value [.int 99] = .error (.arity .parameter "alpha" 0 1 []) ∧
    ¬ (alpha.hasIndex [.int 99] = .ok true ↔ ∃ v, alpha.value [.int 99] = .ok v) :=
  ⟨rfl, rfl, rfl, fun h => nomatch h.mp rfl⟩

end StoredParameter

end Milp
