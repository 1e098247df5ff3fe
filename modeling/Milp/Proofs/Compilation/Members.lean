import Milp.Proofs.Compilation.Totality
import Milp.Proofs.Evaluation.Operators
import Milp.Proofs.Model.Validity
import Milp.Proofs.Scope
import Milp.Proofs.Storage.Representation

/-! Members of declared families. A target allocates the members of a family over the elements that
the index sets have when it is declared, and expansion runs over the same sets by their names: a
constraint on every member has one instance per member, in the order of allocation, and a reference
has a member exactly where each of its indices is in its set. -/
namespace Milp

def Scalar.literal : Scalar → Expr
  | int v => .number (.int v)
  | float x => .number (.float x)
  | str s => .string s

namespace Variable

def bound (v : Variable) (names : List String) (form : ComparisonForm) (relation : Relation)
    (s : Scalar) : Comparison Expr :=
  ⟨form, .refAt .variable v.name (names.map .indexVar), relation, s.literal⟩

def everywhere (v : Variable) (names : List String) : List Quantifier :=
  (names.zip v.indices).map fun p => ⟨p.1, p.2, none⟩

variable {v : Variable} {names : List String}

theorem indices_everywhere (h : names.length = v.indices.length) :
    (v.everywhere names).map Quantifier.index = names := by
  rw [everywhere, List.map_map]
  exact List.map_fst_zip h.le

theorem sets_everywhere (h : names.length = v.indices.length) :
    (v.everywhere names).map Quantifier.set = v.indices := by
  rw [everywhere, List.map_map]
  exact List.map_snd_zip h.ge

theorem conditions_everywhere (v : Variable) (names : List String) :
    (v.everywhere names).filterMap Quantifier.condition = [] := by
  rw [everywhere, List.filterMap_map, List.filterMap_eq_nil_iff]
  exact fun _ _ => rfl

end Variable

/-- Where no name stands twice, names are bound one by one to the components of a tuple. -/
theorem Scope.forall₂_get?_zip {names : List String} (h : names.Nodup) {t : Tuple}
    (hlen : t.length = names.length) :
    List.Forall₂ (fun name x => get? [names.zip t] name = some x) names t := by
  refine List.forall₂_iff_get.mpr ⟨hlen.symm, fun k hk ht => ?_⟩
  rw [get?_zip h hlen, List.get_eq_getElem, h.idxOf_getElem k hk, List.getElem?_eq_getElem ht]
  rfl

variable {V : Type} {st : Setting V}

/-- Index variables in the positions of a reference stand for the elements they are bound to. -/
theorem Expr.evalPositions_indexVars (owner : String) {scope : Scope} {names : List String}
    {t : Tuple} (h : List.Forall₂ (fun name x => scope.get? name = some x) names t) :
    evalPositions st scope owner (names.map .indexVar) = .ok t := by
  refine evalPositions_elements owner (List.forall₂_map_left_iff.mpr (h.imp fun name x hx => ?_))
  rw [eval, hx]

/-- A reference with as many indices as its family has sets is a lookup at what they evaluate to. -/
theorem Expr.eval_member {v : Variable} (hv : st.vars.get? v.name = some v) {scope : Scope}
    {positions : List Expr} (hlen : positions.length = v.indices.length) {t : Tuple}
    (ht : evalPositions st scope v.name positions = .ok t) :
    (Expr.refAt .variable v.name positions).eval st scope =
      st.lookup .variable v.name t scope := by
  have harity : st.checkArity .variable v.name positions.length scope = .ok () := by
    simp only [Setting.checkArity, Setting.dimension, hv]
    exact if_neg (not_not.mpr hlen)
  rw [eval, harity, ok_bind, ht, ok_bind]

namespace Constraint

/-- Without conditions, a walk over tuples at which the body has a value leaves none out. -/
theorem walk_unconditioned {c : Constraint}
    (hconditions : c.quantifiers.filterMap Quantifier.condition = [])
    {value : Tuple → ResolvedComparison V} {ts : List Tuple}
    (hbody : ∀ t ∈ ts, Comparison.eval st (scope c.quantifiers t) c.body = .ok (value t)) :
    walk st c ts = .ok ⟨ts.map fun t => ⟨some t, value t⟩, 0⟩ := by
  induction ts with
  | nil => rfl
  | cons t ts ih =>
    have ht := hbody t List.mem_cons_self
    rw [scope_eq_bindings] at ht
    simp only [walk, hconditions, Condition.holdAll, ht,
      ih fun u hu => hbody u (List.mem_cons_of_mem _ hu)]
    rfl

/-- A bound on a family has an instance for every tuple of its index sets that has a handle. -/
theorem expand_bound {v : Variable} (hv : st.vars.get? v.name = some v)
    (hindexed : v.indices ≠ []) (hlimit : st.limits.instances = none)
    {axes : List (List Element)} (haxes : st.axes v.indices = .ok axes) {handle : Tuple → V}
    (hhandle : ∀ t ∈ tuples axes, st.handle v.name t = some (handle t))
    (name : String) (form : ComparisonForm) (relation : Relation) (s : Scalar)
    {names : List String} (hnames : names.Nodup) (hlen : names.length = v.indices.length) :
    (forAll name (v.bound names form relation s) (v.everywhere names)).expand st =
      .ok ⟨(tuples axes).map fun t =>
        ⟨some t, ⟨.symbolic (.var (handle t)), relation, .host s⟩⟩, 0⟩ := by
  have hne : v.everywhere names ≠ [] := by
    intro hnil
    have hindices := Variable.sets_everywhere hlen
    rw [hnil] at hindices
    exact hindexed hindices.symm
  have hquantifiers : (forAll name (v.bound names form relation s)
      (v.everywhere names)).quantifiers = v.everywhere names := by
    rw [quantifiers, forAll, if_neg (mt List.isEmpty_iff.mp hne)]
    rfl
  rw [expand_quantified (by rw [hquantifiers]; exact hne), hquantifiers,
    Variable.sets_everywhere hlen, haxes, ok_bind, hlimit]
  refine walk_unconditioned (by rw [hquantifiers, Variable.conditions_everywhere]) fun t ht => ?_
  have htlen : t.length = names.length := by
    rw [length_of_mem_tuples ht, Setting.length_of_axes haxes, hlen]
  have hpositions : Expr.evalPositions st [names.zip t] v.name (names.map .indexVar) = .ok t :=
    Expr.evalPositions_indexVars v.name (Scope.forall₂_get?_zip hnames htlen)
  have hleft : (Expr.refAt .variable v.name (names.map .indexVar)).eval st [names.zip t] =
      .ok (.symbolic (.var (handle t))) := by
    rw [Expr.eval_member hv (by rw [List.length_map, hlen]) hpositions, Setting.lookup,
      hhandle t ht]
  have hright : s.literal.eval st [names.zip t] = .ok (.host s) := by cases s <;> rfl
  have hscope : scope (v.everywhere names) t = [names.zip t] := by
    rw [scope, Variable.indices_everywhere hlen]
    rfl
  rw [hquantifiers, hscope, forAll, Variable.bound, Comparison.eval, hleft, ok_bind, hright]
  rfl

end Constraint

namespace Model

variable {m : Model}

/-- A fresh stored model that accepts the declarations of a well-formed model holds them and nothing
else, and the index sets of all variables exist. -/
theorem WellFormed.declare_stored (hm : m.WellFormed)
    (h : m.declareFailure StoredModel.target {} = none) :
    (m.declare StoredModel.target {}).state = m.declared.stored ∧
      ∀ v ∈ m.vars.items, m.Grounded v := by
  have hdeclare := CompiledModel.stored_refines.declare m {}
  have hfailure := CompiledModel.stored_refines.declareFailure m {}
  obtain ⟨-, hunknown⟩ := Option.or_eq_none_iff.mp h
  rw [← hm.declare_fresh.2 hunknown]
  exact ⟨congrArg Delivery.state hdeclare, hm.declareFailure_fresh.1.mp (hfailure ▸ h)⟩

/-- Where the sets of a variable exist, its family is over what a setting reads for them. -/
theorem axes_setting {σ : Type} {v : Variable} (h : m.Grounded v) (t : Target σ V) (limits : Limits)
    (s : σ) : (m.setting t limits s).axes v.indices = .ok (m.family v).axes := by
  refine mapM_eq_ok.mpr (List.forall₂_map_right_iff.mpr (List.forall₂_same.mpr fun name hname => ?_))
  obtain ⟨set, hset⟩ := h name hname
  refine Setting.elements_eq_ok.mpr ⟨set, hset, ?_⟩
  rw [elementsOf, hset]
  rfl

theorem mem_elementsOf {name : String} {x : Element} :
    x ∈ m.elementsOf name ↔ ∃ s, m.sets.get? name = some s ∧ x ∈ s.elements := by
  rw [elementsOf]
  cases m.sets.get? name <;> simp

/-- Whether a tuple has one element of each index set of a variable. -/
def Indexes (m : Model) (v : Variable) (t : Tuple) : Prop :=
  List.Forall₂ (fun x name => ∃ s, m.sets.get? name = some s ∧ x ∈ s.elements) t v.indices

theorem mem_tuples_family {v : Variable} {t : Tuple} :
    t ∈ tuples (m.family v).axes ↔ m.Indexes v t := by
  simp only [Indexes, mem_tuples, family, List.forall₂_map_right_iff, mem_elementsOf]

open Classical in
/-- A declared family has a member at a tuple exactly where each component is in its set. -/
theorem member?_stored_declared {v : Variable} (hv : m.vars.get? v.name = some v) (t : Tuple) :
    m.declared.stored.member? v.name t = if m.Indexes v t then some ⟨v.name, t⟩ else none := by
  rw [CompiledModel.member?_stored, member?_declared, hv, Option.bind_some, Family.member?]
  refine if_congr ?_ rfl rfl
  rw [Family.onAxes_eq_true, mem_tuples_family]

theorem members_stored_declared {v : Variable} (hv : m.vars.get? v.name = some v) :
    m.declared.stored.members v.name =
      (tuples (m.family v).axes).map fun t => ⟨v.name, t⟩ := by
  have hfamily : m.declared.families.get? v.name = some (m.family v) := by
    rw [declared, Registry.get?_map m.family (fun _ => rfl) m.vars, hv]
    rfl
  rw [CompiledModel.members_stored, CompiledModel.members, hfamily]
  rfl

/-- The setting of a model whose declarations were delivered to a fresh stored model. -/
def storedSetting (m : Model) (limits : Limits) : Setting Member :=
  m.setting StoredModel.target limits (m.declare StoredModel.target {}).state

/-- Once the variables of a model are declared to a fresh target, expansion over the index sets of a
family runs through its members: a constraint that compares the member at distinct quantified indices
with a scalar has one instance for each member, in order, with its index and its handle. A reference
with an index for each set has a member where each index is an element of its set, and is out of
range otherwise. -/
theorem expand_members {m : Model} (hm : m.Reachable)
    (hdeclared : m.declareFailure StoredModel.target {} = none) {v : Variable}
    (hv : m.vars.get? v.name = some v) (limits : Limits) :
    (v.indices ≠ [] → limits.instances = none →
      ∀ (name : String) (form : ComparisonForm) (relation : Relation) (s : Scalar)
        (names : List String), names.Nodup → names.length = v.indices.length →
        (Constraint.forAll name (v.bound names form relation s) (v.everywhere names)).expand
            (m.storedSetting limits) =
          .ok ⟨((m.declare StoredModel.target {}).state.members v.name).map fun x =>
            ⟨some x.index, ⟨.symbolic (.var x), relation, .host s⟩⟩, 0⟩) ∧
    ∀ (scope : Scope) (positions : List Expr) (t : Tuple), positions.length = v.indices.length →
      Expr.evalPositions (m.storedSetting limits) scope v.name positions = .ok t →
      (m.Indexes v t → (Expr.refAt .variable v.name positions).eval (m.storedSetting limits) scope =
        .ok (.symbolic (.var ⟨v.name, t⟩))) ∧
      (¬ m.Indexes v t → (Expr.refAt .variable v.name positions).eval (m.storedSetting limits) scope =
        .error (.outOfRange v.name t scope.snapshot)) := by
  obtain ⟨hstate, hall⟩ := hm.wellFormed.declare_stored hdeclared
  have hgrounded : m.Grounded v := hall v (Registry.mem_of_get? hv).1
  have hmember := member?_stored_declared hv
  rw [storedSetting, hstate]
  refine ⟨fun hindexed hlimit name form relation s names hnames hlen => ?_,
    fun scope positions t hlen ht => ?_⟩
  · rw [members_stored_declared hv, List.map_map]
    refine Constraint.expand_bound hv hindexed hlimit (axes_setting hgrounded _ _ _) (fun t ht => ?_)
      name form relation s hnames hlen
    exact (hmember t).trans (if_pos (mem_tuples_family.mp ht))
  · rw [Expr.eval_member hv hlen ht, Setting.lookup]
    refine ⟨fun hin => ?_, fun hout => ?_⟩
    · simp only [setting, StoredModel.target, (hmember t).trans (if_pos hin)]
    · simp only [setting, StoredModel.target, (hmember t).trans (if_neg hout)]

def seats : Variable := { name := "x", indices := ["I", "J", "I"] }

def seated : Model := .ofEdits "seats" [
  .addSet ⟨"I", [.int 1, .int 2]⟩, .addSet ⟨"J", [.str "a"]⟩, .addVariable seats]

theorem expand_members_seated :
    seated.Reachable ∧ seated.declareFailure StoredModel.target {} = none ∧
    seated.vars.get? "x" = some seats ∧ seats.indices ≠ [] ∧ ["i", "j", "k"].Nodup ∧
    (seated.declare StoredModel.target {}).state.members "x" =
      [⟨"x", [.int 1, .str "a", .int 1]⟩, ⟨"x", [.int 1, .str "a", .int 2]⟩,
        ⟨"x", [.int 2, .str "a", .int 1]⟩, ⟨"x", [.int 2, .str "a", .int 2]⟩] ∧
    (Constraint.forAll "full" (seats.bound ["i", "j", "k"] .comparison .le (.int 5))
        (seats.everywhere ["i", "j", "k"])).expand (seated.storedSetting {}) =
      .ok ⟨((seated.declare StoredModel.target {}).state.members "x").map fun x =>
        ⟨some x.index, ⟨.symbolic (.var x), .le, .host (.int 5)⟩⟩, 0⟩ ∧
    seated.Indexes seats [.int 2, .str "a", .int 1] ∧
    (Expr.var "x" [.int 2, .string "a", .indexVar "k"]).eval (seated.storedSetting {})
        [[("k", .int 1)]] = .ok (.symbolic (.var ⟨"x", [.int 2, .str "a", .int 1]⟩)) ∧
    ¬ seated.Indexes seats [.str "a", .str "a", .int 1] ∧
    (Expr.var "x" [.string "a", .string "a", .indexVar "k"]).eval (seated.storedSetting {})
        [[("k", .int 1)]] =
      .error (.outOfRange "x" [.str "a", .str "a", .int 1] [("k", .int 1)]) := by
  have hm : seated.Reachable := reachable_ofEdits _ _
  have hdeclared : seated.declareFailure StoredModel.target {} = none := rfl
  have hv : seated.vars.get? "x" = some seats := rfl
  have hnames : ["i", "j", "k"].Nodup := by decide
  have hin : seated.Indexes seats [.int 2, .str "a", .int 1] :=
    .cons ⟨_, rfl, by decide⟩ (.cons ⟨_, rfl, by decide⟩ (.cons ⟨_, rfl, by decide⟩ .nil))
  have hout : ¬ seated.Indexes seats [.str "a", .str "a", .int 1] := by
    intro h
    cases h with
    | cons hfirst _ =>
      obtain ⟨_, ⟨⟩, hmem⟩ := hfirst
      exact absurd hmem (by decide)
  obtain ⟨hexpand, hreference⟩ := expand_members (v := seats) hm hdeclared hv {}
  exact ⟨hm, hdeclared, hv, nofun, hnames, rfl, hexpand nofun rfl "full" _ _ _ _ hnames rfl, hin,
    (hreference _ _ _ rfl rfl).1 hin, hout, (hreference _ _ _ rfl rfl).2 hout⟩

end Model

end Milp
