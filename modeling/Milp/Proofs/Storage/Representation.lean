import Milp.Proofs.Compilation.Refinement
import Milp.Proofs.Enumeration
import Milp.StoredModel

/-! Stored models represent compiled ones. The tables of a stored model are determined by its
lists: members and positions by the axes of a family, the keys by the rows. A stored model
therefore answers every call and every lookup as the compiled model does that it represents. -/
namespace Milp

/-- A position in the table is one where the tuple stands. -/
theorem getElem?_of_lookup_positionsOf {ts : List Tuple} {t : Tuple} {i : Nat}
    (h : (positionsOf ts).lookup t = some i) : ts[i]? = some t := by
  obtain ⟨before, after, hsplit, _⟩ := List.lookup_eq_some_iff.mp h
  have hmem : (t, i) ∈ positionsOf ts := hsplit ▸ List.mem_append_right _ List.mem_cons_self
  exact List.mem_zipIdx_iff_getElem?.mp (List.mem_reverse.mp hmem)

/-- Every tuple of the list has a position. -/
theorem lookup_positionsOf_eq_none {ts : List Tuple} {t : Tuple} :
    (positionsOf ts).lookup t = none ↔ t ∉ ts := by
  rw [List.lookup_eq_none_iff]
  constructor
  · intro h hmem
    obtain ⟨i, hi⟩ := List.mem_iff_getElem?.mp hmem
    have hpair : (t, i) ∈ positionsOf ts :=
      List.mem_reverse.mpr (List.mem_zipIdx_iff_getElem?.mpr hi)
    simpa using h (t, i) hpair
  · rintro h ⟨u, i⟩ hpair
    have hi := List.mem_zipIdx_iff_getElem?.mp (List.mem_reverse.mp hpair)
    have hu : u ∈ ts := List.mem_of_getElem? hi
    simpa using fun he : t = u => h (he ▸ hu)

namespace Family

def stored (f : Family) : StoredFamily := .allocate f.declaration f.axes

theorem onAxes_eq_true {axes : List (List Element)} {t : Tuple} :
    onAxes axes t = true ↔ t ∈ tuples axes := by
  rw [mem_tuples]
  induction axes generalizing t with
  | nil => cases t <;> simp [onAxes]
  | cons axis axes ih => cases t <;> simp [onAxes, ih]

@[simp] theorem members_stored (f : Family) : f.stored.members = f.members := by
  rw [stored, StoredFamily.allocate, Odometer.take_start, members]

@[simp] theorem size_stored (f : Family) : f.stored.size = f.size := by
  rw [StoredFamily.size, members_stored, members, List.length_map, size, Odometer.count_eq_length]

theorem text_stored (f : Family) : f.stored.text = CompiledModel.familyText f := by
  rw [StoredFamily.text, size_stored]
  rfl

/-- The table of positions finds the member of a tuple exactly where the tuple is on the axes. -/
theorem member?_stored (f : Family) (t : Tuple) : f.stored.member? t = f.member? t := by
  have htuples : f.members.map Member.index = tuples f.axes := by
    rw [members, List.map_map]
    exact List.map_id _
  have hpositions : f.stored.positions = positionsOf (tuples f.axes) := by
    rw [← htuples, ← members_stored]
    rfl
  rw [StoredFamily.member?, hpositions, members_stored, member?]
  cases hlookup : (positionsOf (tuples f.axes)).lookup t with
  | none =>
    have hmem := lookup_positionsOf_eq_none.mp hlookup
    rw [if_neg (mt onAxes_eq_true.mp hmem)]
    rfl
  | some i =>
    have hi := getElem?_of_lookup_positionsOf hlookup
    rw [if_pos (onAxes_eq_true.mpr (List.mem_of_getElem? hi)), Option.bind_some, members,
      List.getElem?_map, hi]
    rfl

end Family

namespace CompiledModel

def stored (m : CompiledModel) : StoredModel where
  sets := m.sets
  parameters := m.parameters
  families := ⟨m.families.items.map Family.stored⟩
  rows := m.rows
  keys := m.rows.map Row.key
  goal := m.goal

@[simp] theorem rows_stored (m : CompiledModel) : m.stored.rows = m.rows := rfl

@[simp] theorem goal_stored (m : CompiledModel) : m.stored.goal = m.goal := rfl

theorem get?_families_stored (m : CompiledModel) (name : String) :
    m.stored.families.get? name = (m.families.get? name).map Family.stored :=
  Registry.get?_map Family.stored (fun _ => rfl) m.families name

theorem members_stored (m : CompiledModel) (name : String) :
    m.stored.members name = m.members name := by
  rw [StoredModel.members, get?_families_stored, members]
  cases m.families.get? name with
  | none => rfl
  | some f => exact f.members_stored

theorem member?_stored (m : CompiledModel) (name : String) (t : Tuple) :
    m.stored.member? name t = m.member? name t := by
  rw [StoredModel.member?, get?_families_stored, member?]
  cases m.families.get? name with
  | none => rfl
  | some f => exact f.member?_stored t

theorem row?_stored (m : CompiledModel) (name : String) (t : Tuple) :
    m.stored.row? name t = m.row? name t := by
  rw [StoredModel.row?, row?]
  congr 1
  funext r
  obtain ⟨constraint, index, comparison⟩ := r
  rw [Bool.eq_iff_iff]
  cases index with
  | none => simp [Row.key, @eq_comm _ [] t]
  | some own => simp [Row.key]

theorem variableCount_stored (m : CompiledModel) : m.stored.variableCount = m.variableCount := by
  rw [StoredModel.variableCount, stored, List.foldl_map, variableCount]
  simp only [Family.size_stored]

/-- A stored model is shown as the compiled model that it represents. -/
theorem text_stored (m : CompiledModel) : m.stored.text = m.text := by
  rw [StoredModel.text, StoredModel.lines, text, lines, stored, List.map_map]
  congr 5
  funext f
  exact f.text_stored

theorem takeKey_stored (m : CompiledModel) (r : Row) :
    m.stored.takeKey r.key =
      if m.isFree r then (true, { m.stored with keys := (m.rows ++ [r]).map Row.key })
      else (false, m.stored) := by
  cases hfree : m.isFree r with
  | true =>
    have hkeys : m.stored.keys.contains r.key = false := by simpa [isFree, stored] using hfree
    rw [StoredModel.takeKey, hkeys, if_neg (by decide), if_pos rfl, List.map_append]
    rfl
  | false =>
    have hkeys : m.stored.keys.contains r.key = true := by simpa [isFree, stored] using hfree
    rw [StoredModel.takeKey, hkeys, if_pos rfl, if_neg (by decide)]

/-- Every call to a stored model is answered as by the compiled model that it represents, and leads
to the representation of what that becomes. -/
theorem receive_stored (c : Call Member) (m : CompiledModel) :
    StoredModel.receive c m.stored = ((target.receive c m).1, (target.receive c m).2.stored) := by
  cases c with
  | declareSet s => rfl
  | declareParameter p => rfl
  | declareFamily v sets =>
    have hcontains : m.stored.families.contains v.name = m.families.contains v.name := by
      rw [Registry.contains, get?_families_stored, Option.isSome_map, Registry.contains]
    rw [StoredModel.receive, hcontains]
    cases hdeclared : m.families.contains v.name with
    | true =>
      rw [if_pos rfl, receive_of_error (by rw [receive, if_pos hdeclared])]
    | false =>
      rw [if_neg (by decide), receive_of_ok (by rw [receive, if_neg (by simp [hdeclared])])]
      have hplace := Registry.map_place Family.stored (fun _ => rfl)
        ⟨v, sets.map IndexSet.elements⟩ m.families.items
      simp only [stored, Registry.insert, hplace]
      rfl
  | addInstance name inst =>
    let r : Row := ⟨name, inst⟩
    have htake := m.takeKey_stored r
    cases hfree : m.isFree r with
    | true =>
      rw [hfree, if_pos rfl] at htake
      have hreceive : target.receive (.addInstance name inst) m = _ :=
        receive_of_ok (receive_call_of_free hfree)
      rw [StoredModel.receive, htake, hreceive]
      rfl
    | false =>
      rw [hfree, if_neg (by decide)] at htake
      have hsome : (m.row? name r.key.2).isSome = true := by
        rw [row?_key_isSome m r, hfree]
        rfl
      rw [StoredModel.receive, htake, receive_of_error (by rw [receive, if_pos hsome])]
      rfl
  | setObjective name value sense => rfl

theorem stored_refines : StoredModel.target.Refines target stored where
  receive := receive_stored
  handle m := by
    funext name t
    exact m.member?_stored name t

/-- Compilation into a stored model ends as compilation into the compiled model that it
represents. -/
theorem compile_stored (m : Model) (config : Config) (s : CompiledModel) :
    m.compile StoredModel.target config s.stored =
      ⟨(m.compile target config s).result, (m.compile target config s).state.stored,
        (m.compile target config s).events⟩ :=
  stored_refines.compile m config s

theorem compile_stored_empty (m : Model) (config : Config) :
    m.compile StoredModel.target config {} =
      ⟨(m.compile target config {}).result, (m.compile target config {}).state.stored,
        (m.compile target config {}).events⟩ :=
  compile_stored m config {}

end CompiledModel

namespace StoredModel

/-- Whether the tables of a stored model are those of its lists. -/
structure Coherent (s : StoredModel) : Prop where
  families : ∀ f ∈ s.families.items, ∃ axes, f = .allocate f.declaration axes
  keys : s.keys = s.rows.map Row.key

/-- The coherent models are those that represent a compiled one. -/
theorem coherent_iff {s : StoredModel} : s.Coherent ↔ ∃ c : CompiledModel, c.stored = s := by
  constructor
  · intro h
    have hrange : s.families.items ∈ Set.range (List.map Family.stored) := by
      rw [Set.range_list_map]
      intro f hf
      obtain ⟨axes, hf⟩ := h.families f hf
      exact ⟨⟨f.declaration, axes⟩, hf.symm⟩
    obtain ⟨families, hfamilies⟩ := hrange
    obtain ⟨sets, parameters, ⟨items⟩, rows, keys, goal⟩ := s
    obtain rfl : keys = rows.map Row.key := h.keys
    cases hfamilies
    exact ⟨⟨sets, parameters, ⟨families⟩, rows, goal⟩, rfl⟩
  · rintro ⟨c, rfl⟩
    refine ⟨fun f hf => ?_, rfl⟩
    obtain ⟨g, _, rfl⟩ := List.mem_map.mp hf
    exact ⟨g.axes, rfl⟩

theorem coherent_empty : Coherent {} := ⟨nofun, rfl⟩

/-- Calls keep a stored model coherent, whether they are accepted or refused. -/
theorem Coherent.receive {s : StoredModel} (h : s.Coherent) (c : Call Member) :
    (target.receive c s).2.Coherent := by
  obtain ⟨m, rfl⟩ := coherent_iff.mp h
  rw [CompiledModel.stored_refines.receive]
  exact coherent_iff.mpr ⟨_, rfl⟩

def isFree (s : StoredModel) (r : Row) : Bool := !s.keys.contains r.key

end StoredModel

@[simp] theorem CompiledModel.isFree_stored (m : CompiledModel) : m.stored.isFree = m.isFree := by
  funext r
  rw [StoredModel.isFree, isFree, List.contains_eq_mem, decide_not]
  rfl

end Milp
