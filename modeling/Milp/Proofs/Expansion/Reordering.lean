import Milp.Proofs.Evaluation.Renaming

/-! Reordering of quantifiers. An expansion that succeeds is the list of the comparisons at those
tuples where all conditions hold, so that neither the quantifier that a condition is attached to nor
the order of the quantifiers changes what there is: tuples come in another order, and with their
components in another order. -/
namespace Milp

def Quantifier.range (q : Quantifier) : Range := ⟨q.index, q.set⟩

/-- The components of a tuple whose positions have names, in another order of the names. -/
def Tuple.rearrange (names names' : List String) (t : Tuple) : Tuple :=
  names'.filterMap fun name => t[names.idxOf name]?

theorem Tuple.rearrange_self {names : List String} (h : names.Nodup) {t : Tuple}
    (hlen : t.length = names.length) : t.rearrange names names = t := by
  induction names generalizing t with
  | nil => rw [List.length_eq_zero_iff.mp hlen, rearrange, List.filterMap_nil]
  | cons a as ih =>
    obtain ⟨x, t, rfl⟩ := List.exists_cons_of_length_eq_add_one hlen
    obtain ⟨ha, has⟩ := List.nodup_cons.mp h
    have hrest : (as.filterMap fun name => (x :: t)[(a :: as).idxOf name]?) =
        as.filterMap fun name => t[as.idxOf name]? := by
      refine List.filterMap_congr fun name hname => ?_
      have hne : a ≠ name := fun h => ha (h ▸ hname)
      rw [List.idxOf_cons_ne _ hne, List.getElem?_cons_succ]
    rw [rearrange, List.filterMap_cons_some (b := x) (by simp), hrest]
    exact congrArg _ (ih has (Nat.succ.inj hlen))

variable {V : Type} {st : Setting V} {s s' : Scope}

def Instance.rearrange (names names' : List String) (i : Instance V) : Instance V :=
  { i with index := i.index.map (Tuple.rearrange names names') }

/-- Whether a condition is true in a scope. One that fails there is not. -/
def Condition.holds (st : Setting V) (scope : Scope) (c : Comparison Expr) : Bool :=
  (Condition.eval st scope (some c)).toOption.getD false

theorem Condition.holds_same (h : ∀ name, s'.get? name = s.get? name) (c : Comparison Expr) :
    holds st s' c = holds st s c := by
  rw [holds, holds, (eval_same (some c) h).toOption_eq]

/-- Conditions that can all be tried up to the first false one are all true, or not. -/
theorem Condition.all_holds_of_holdAll {cs : List (Comparison Expr)} {b : Bool}
    (h : holdAll st s cs = .ok b) : cs.all (holds st s) = b := by
  induction cs with
  | nil =>
    cases h
    rfl
  | cons c cs ih =>
    rw [holdAll_cons] at h
    obtain ⟨holdsHere, hc, h⟩ := bind_eq_ok.mp h
    have hhere : holds st s c = holdsHere := by
      rw [holds, hc]
      rfl
    rw [List.all_cons, hhere]
    cases holdsHere with
    | false => exact Except.ok.inj h
    | true => exact ih h

namespace Setting

/-- The elements of a set; there are none where the set is unknown. -/
def axis (st : Setting V) (name : String) : List Element := (st.elements name).toOption.getD []

theorem axes_eq_map_axis {names : List String} {axes : List (List Element)}
    (h : st.axes names = .ok axes) : axes = names.map st.axis := by
  have haxis (name : String) (axis : List Element) (hname : st.elements name = .ok axis) :
      st.axis name = axis := by
    rw [Setting.axis, hname]
    rfl
  rw [eq_comm, ← List.forall₂_eq_eq_eq, List.forall₂_map_left_iff]
  exact (mapM_eq_ok.mp h).imp haxis

def layers (st : Setting V) (ranges : List Range) : List Bindings :=
  tuples (ranges.map fun r => (st.axis r.set).map fun x => (r.index, x))

theorem layers_eq (st : Setting V) (ranges : List Range) :
    st.layers ranges = (tuples (ranges.map fun r => st.axis r.set)).map
      ((ranges.map Range.index).zip ·) :=
  tuples_tagged Range.index (fun r => st.axis r.set) ranges

end Setting

namespace Constraint

/-- The comparison that a constraint comes to in a scope where all its conditions hold. -/
def comparison? (st : Setting V) (c : Constraint) (scope : Scope) :
    Option (ResolvedComparison V) :=
  if c.conditions.all (Condition.holds st scope) then
    (Comparison.eval st scope c.body).toOption
  else none

theorem comparison?_same (h : ∀ name, s'.get? name = s.get? name) (c : Constraint) :
    c.comparison? st s' = c.comparison? st s := by
  have hholds : Condition.holds st s' = Condition.holds st s :=
    funext (Condition.holds_same h)
  rw [comparison?, comparison?, hholds, (Comparison.eval_same c.body h).toOption_eq]

/-- A constraint comes to the same comparison whatever the order of its conditions. -/
theorem comparison?_congr {c c' : Constraint} (hbody : c'.body = c.body)
    (hconditions : c'.conditions.Perm c.conditions) (scope : Scope) :
    c'.comparison? st scope = c.comparison? st scope := by
  rw [comparison?, comparison?, hbody, hconditions.all_eq]

theorem comparison?_of_holdAll {c : Constraint} {b : Bool}
    (h : Condition.holdAll st s c.conditions = .ok b) :
    c.comparison? st s = if b then (Comparison.eval st s c.body).toOption else none := by
  rw [comparison?, Condition.all_holds_of_holdAll h]

/-- A walk that succeeds collects the comparisons of the tuples where all conditions hold. -/
theorem walk_instances {c : Constraint} {ts : List Tuple} {e : Expansion V}
    (h : walk st c ts = .ok e) :
    e.instances = ts.filterMap fun t =>
      (c.comparison? st (scope c.quantifiers t)).map (⟨some t, ·⟩) := by
  induction ts generalizing e with
  | nil =>
    cases h
    rfl
  | cons t ts ih =>
    rw [walk_cons, ← scope_eq_bindings] at h
    obtain ⟨admitted, hadmitted, h⟩ := bind_eq_ok.mp h
    have hcomparison := comparison?_of_holdAll (c := c) hadmitted
    cases admitted with
    | false =>
      obtain ⟨e', he', rfl⟩ := map_eq_ok.mp h
      rw [List.filterMap_cons_none, ih he']
      rw [hcomparison]
      rfl
    | true =>
      obtain ⟨r, hr, h⟩ := bind_eq_ok.mp h
      obtain ⟨e', he', rfl⟩ := map_eq_ok.mp h
      rw [List.filterMap_cons_some, ih he']
      rw [hcomparison, hr]
      rfl

/-- What a constraint comes to where its quantifiers are bound in some order, with the tuple in the
order of given names. -/
def view (st : Setting V) (c : Constraint) (names : List String) (bs : Bindings) :
    Option (Instance V) :=
  (c.comparison? st [bs]).map (⟨some (names.filterMap (Scope.get? [bs])), ·⟩)

/-- The order of the bindings of distinct names does not matter. -/
theorem view_perm {c : Constraint} {names : List String} {bs bs' : Bindings} (h : bs.Perm bs')
    (hdistinct : (bs.map Prod.fst).Nodup) : c.view st names bs = c.view st names bs' := by
  have hsame (name : String) : Scope.get? [bs'] name = Scope.get? [bs] name :=
    Scope.get?_child_perm .root h hdistinct name
  have hlookups : Scope.get? [bs'] = Scope.get? [bs] := funext hsame
  rw [view, view, hlookups, comparison?_same hsame]

/-- The expansion of a quantified constraint is a walk over the product of its sets. -/
theorem exists_walk {c : Constraint} {e : Expansion V} (hq : c.quantifiers ≠ [])
    (he : c.expand st = .ok e) :
    walk st c (tuples ((c.quantifiers.map Quantifier.range).map fun r => st.axis r.set)) = .ok e := by
  rw [expand_limited hq] at he
  obtain ⟨axes, haxes, he⟩ := bind_eq_ok.mp he
  obtain ⟨_, hwalk⟩ := check_bind_eq_ok.mp he
  rw [Setting.axes_eq_map_axis haxes, List.map_map] at hwalk
  rw [List.map_map]
  exact hwalk

private theorem length_of_mem_product {c : Constraint} {t : Tuple}
    (ht : t ∈ tuples ((c.quantifiers.map Quantifier.range).map fun r => st.axis r.set)) :
    t.length = (c.quantifiers.map Quantifier.index).length := by
  rw [length_of_mem_tuples ht, List.length_map, List.length_map, List.length_map]

/-- The instances of a quantified constraint, with their tuples rearranged, are what the bindings of
its ranges show. -/
theorem instances_rearranged {c : Constraint} {e : Expansion V} (hq : c.quantifiers ≠ [])
    (hdistinct : (c.quantifiers.map Quantifier.index).Nodup) (names : List String)
    (he : c.expand st = .ok e) :
    e.instances.map (Instance.rearrange (c.quantifiers.map Quantifier.index) names) =
      (st.layers (c.quantifiers.map Quantifier.range)).filterMap (c.view st names) := by
  have hnames : (c.quantifiers.map Quantifier.range).map Range.index =
      c.quantifiers.map Quantifier.index := List.map_map
  rw [walk_instances (exists_walk hq he), List.map_filterMap, Setting.layers_eq,
    List.filterMap_map, hnames]
  refine List.filterMap_congr fun t ht => ?_
  have hread : names.filterMap (Scope.get? [(c.quantifiers.map Quantifier.index).zip t]) =
      t.rearrange (c.quantifiers.map Quantifier.index) names :=
    List.filterMap_congr fun name _ => Scope.get?_zip hdistinct (length_of_mem_product ht) name
  rw [Function.comp_apply, view, hread, Option.map_map]
  rfl

/-- Tuples that are in the order of the quantifiers already are left alone. -/
theorem instances_rearranged_self {c : Constraint} {e : Expansion V} (hq : c.quantifiers ≠ [])
    (hdistinct : (c.quantifiers.map Quantifier.index).Nodup) (he : c.expand st = .ok e) :
    e.instances.map (Instance.rearrange (c.quantifiers.map Quantifier.index)
      (c.quantifiers.map Quantifier.index)) = e.instances := by
  refine (List.map_congr_left fun i hi => ?_).trans (List.map_id' _)
  have hindex := (walk_sublist (exists_walk hq he)).subset (List.mem_map_of_mem hi)
  obtain ⟨t, ht, htuple⟩ := List.mem_map.mp hindex
  rw [Instance.rearrange, ← htuple, Option.map_some,
    Tuple.rearrange_self hdistinct (length_of_mem_product ht), htuple]

theorem nodup_of_mem_layers {ranges : List Range} (h : (ranges.map Range.index).Nodup)
    {bs : Bindings} (hbs : bs ∈ st.layers ranges) : (bs.map Prod.fst).Nodup := by
  rw [Setting.layers_eq] at hbs
  obtain ⟨t, ht, rfl⟩ := List.mem_map.mp hbs
  rwa [List.map_fst_zip]
  rw [length_of_mem_tuples ht, List.length_map, List.length_map]

/-- Constraints whose ranges are the same in another order show the same. -/
theorem layers_view_perm {c : Constraint} {ranges ranges' : List Range}
    (hranges : ranges.Perm ranges') (hdistinct : (ranges.map Range.index).Nodup)
    (names : List String) :
    ((st.layers ranges).filterMap (c.view st names)).Perm
      ((st.layers ranges').filterMap (c.view st names)) := by
  have hviews : ((st.layers ranges).map (c.view st names)).Perm
      ((st.layers ranges').map (c.view st names)) :=
    tuples_perm (hranges.map _) fun bs hbs bs' h => view_perm h (nodup_of_mem_layers hdistinct hbs)
  have hfilter := hviews.filterMap id
  rwa [List.filterMap_map, List.filterMap_map] at hfilter

/-- Constraints that differ in their conditions' order and in what carries them show the same. -/
theorem view_congr {c c' : Constraint} (hbody : c'.body = c.body)
    (hconditions : c'.conditions.Perm c.conditions) (names : List String) :
    (c'.view st names : Bindings → Option (Instance V)) = c.view st names := by
  funext bs
  rw [view, view, comparison?_congr hbody hconditions]

theorem instances_perm {c c' : Constraint} {e e' : Expansion V} (hq : c.quantifiers ≠ [])
    (hq' : c'.quantifiers ≠ []) (hbody : c'.body = c.body)
    (hranges : (c'.quantifiers.map Quantifier.range).Perm (c.quantifiers.map Quantifier.range))
    (hdistinct : (c.quantifiers.map Quantifier.index).Nodup)
    (hconditions : c'.conditions.Perm c.conditions)
    (he : c.expand st = .ok e) (he' : c'.expand st = .ok e') :
    e'.instances.Perm (e.instances.map (Instance.rearrange (c.quantifiers.map Quantifier.index)
      (c'.quantifiers.map Quantifier.index))) := by
  have hnames (d : Constraint) : (d.quantifiers.map Quantifier.range).map Range.index =
      d.quantifiers.map Quantifier.index := List.map_map
  have hperm := hranges.map Range.index
  rw [hnames, hnames] at hperm
  have hdistinct' : (c'.quantifiers.map Quantifier.index).Nodup := hperm.nodup_iff.mpr hdistinct
  rw [← instances_rearranged_self hq' hdistinct' he', instances_rearranged hq' hdistinct' _ he',
    instances_rearranged hq hdistinct _ he, view_congr hbody hconditions]
  refine layers_view_perm hranges ?_ _
  rwa [hnames]

/-- Two expansions over as many tuples skip as many when they have as many instances. -/
theorem skipped_eq {c c' : Constraint} {e e' : Expansion V} (hq : c.quantifiers ≠ [])
    (hq' : c'.quantifiers ≠ [])
    (hranges : (c'.quantifiers.map Quantifier.range).Perm (c.quantifiers.map Quantifier.range))
    (hlength : e'.instances.length = e.instances.length)
    (he : c.expand st = .ok e) (he' : c'.expand st = .ok e') : e'.skipped = e.skipped := by
  have hcount := walk_length (exists_walk hq he)
  have hcount' := walk_length (exists_walk hq' he')
  have hproduct := ((hranges.map fun r => st.axis r.set).map List.length).prod_eq
  rw [length_tuples] at hcount hcount'
  omega

/-- With the ranges in the same order, neither the order of the conditions nor what carries them
changes the list of instances. -/
theorem instances_eq {c c' : Constraint} {e e' : Expansion V} (hq : c.quantifiers ≠ [])
    (hq' : c'.quantifiers ≠ []) (hbody : c'.body = c.body)
    (hranges : c'.quantifiers.map Quantifier.range = c.quantifiers.map Quantifier.range)
    (hconditions : c'.conditions.Perm c.conditions)
    (he : c.expand st = .ok e) (he' : c'.expand st = .ok e') : e'.instances = e.instances := by
  have hnames : c'.quantifiers.map Quantifier.index = c.quantifiers.map Quantifier.index := by
    have hindices := congrArg (List.map Range.index) hranges
    rwa [List.map_map, List.map_map] at hindices
  rw [walk_instances (exists_walk hq he), walk_instances (exists_walk hq' he'), hranges]
  refine List.filterMap_congr fun t _ => ?_
  rw [scope, scope, hnames, comparison?_congr hbody hconditions]

/-- Two constraints with the same body, with the same ranges of distinct index variables in any order
and with the same conditions attached in any way: where both expansions succeed, they skip as many
tuples, and the instances of one are those of the other with their tuples rearranged, in some order.
With the ranges in the same order they are the same list. -/
theorem expand_reordered (st : Setting V) (c c' : Constraint) (e e' : Expansion V)
    (hbody : c'.body = c.body)
    (hranges : (c'.quantifiers.map Quantifier.range).Perm (c.quantifiers.map Quantifier.range))
    (hdistinct : (c.quantifiers.map Quantifier.index).Nodup)
    (hconditions : c'.conditions.Perm c.conditions)
    (he : c.expand st = .ok e) (he' : c'.expand st = .ok e') :
    e'.skipped = e.skipped ∧
    e'.instances.Perm (e.instances.map (Instance.rearrange (c.quantifiers.map Quantifier.index)
      (c'.quantifiers.map Quantifier.index))) ∧
    (c'.quantifiers.map Quantifier.range = c.quantifiers.map Quantifier.range →
      e'.instances = e.instances) := by
  by_cases hq : c.quantifiers = []
  · have hq' : c'.quantifiers = [] := by
      rw [hq, List.map_nil] at hranges
      exact List.map_eq_nil_iff.mp hranges.eq_nil
    have hsame : c'.expand st = c.expand st := by
      rw [expand_unquantified hq, expand_unquantified hq', hbody]
    have heq : e' = e := Except.ok.inj (he'.symm.trans (hsame.trans he))
    rw [expand_unquantified hq] at he
    obtain ⟨r, _, rfl⟩ := map_eq_ok.mp he
    rw [heq]
    exact ⟨rfl, .refl _, fun _ => rfl⟩
  · have hq' : c'.quantifiers ≠ [] := by
      intro hnil
      rw [hnil, List.map_nil] at hranges
      exact hq (List.map_eq_nil_iff.mp hranges.symm.eq_nil)
    have hperm := instances_perm hq hq' hbody hranges hdistinct hconditions he he'
    refine ⟨skipped_eq hq hq' hranges ?_ he he', hperm, fun hsame => ?_⟩
    · rw [hperm.length_eq, List.length_map]
    · exact instances_eq hq hq' hbody hsame hconditions he he'

def shifts : Setting Tuple where
  sets := ⟨[⟨"D", [.int 1, .int 2]⟩, ⟨"P", [.str "early", .str "late"]⟩]⟩
  parameters := .empty
  vars := ⟨[{ name := "x", indices := ["D", "P", "D"] }]⟩
  handle _ t := some t

def swaps (quantifiers : Comparison Expr → Comparison Expr → List Quantifier) : Constraint :=
  .forAll "swaps"
    (.plain (.var "x" [.indexVar "d", .indexVar "p", .indexVar "e"]) .le (.int 1))
    (quantifiers (.index (.indexVar "d") .ne (.indexVar "e"))
      (.index (.indexVar "p") .ne (.string "late")))

def byDay : Constraint :=
  swaps fun apart early => [⟨"d", "D", some apart⟩, ⟨"p", "P", some early⟩, ⟨"e", "D", none⟩]

def byOtherDay : Constraint :=
  swaps fun apart early => [⟨"e", "D", none⟩, ⟨"d", "D", some early⟩, ⟨"p", "P", some apart⟩]

def earlySwap (index : Tuple) (d e : Int64) : Instance Tuple :=
  ⟨some index, ⟨.symbolic (.var [.int d, .str "early", .int e]), .le, .host (.int 1)⟩⟩

def daily : Expansion Tuple :=
  ⟨[earlySwap [.int 1, .str "early", .int 2] 1 2, earlySwap [.int 2, .str "early", .int 1] 2 1], 6⟩

def otherDaily : Expansion Tuple :=
  ⟨[earlySwap [.int 1, .int 2, .str "early"] 2 1, earlySwap [.int 2, .int 1, .str "early"] 1 2], 6⟩

theorem expand_reordered_swaps :
    byDay.expand shifts = .ok daily ∧ byOtherDay.expand shifts = .ok otherDaily ∧
    byOtherDay.body = byDay.body ∧
    (byOtherDay.quantifiers.map Quantifier.range).Perm (byDay.quantifiers.map Quantifier.range) ∧
    (byDay.quantifiers.map Quantifier.index).Nodup ∧
    byOtherDay.conditions.Perm byDay.conditions ∧
    otherDaily.skipped = daily.skipped ∧
    otherDaily.instances.Perm
      (daily.instances.map (Instance.rearrange ["d", "p", "e"] ["e", "d", "p"])) := by
  have hday : byDay.expand shifts = .ok daily := rfl
  have hother : byOtherDay.expand shifts = .ok otherDaily := rfl
  have hranges : (byOtherDay.quantifiers.map Quantifier.range).Perm
    (byDay.quantifiers.map Quantifier.range) := by decide
  have hdistinct : (byDay.quantifiers.map Quantifier.index).Nodup := by decide
  have hconditions : byOtherDay.conditions.Perm byDay.conditions := .swap _ _ _
  obtain ⟨hskipped, hperm, _⟩ := expand_reordered shifts byDay byOtherDay daily otherDaily rfl
    hranges hdistinct hconditions hday hother
  exact ⟨hday, hother, rfl, hranges, hdistinct, hconditions, hskipped, hperm⟩

end Constraint

end Milp
