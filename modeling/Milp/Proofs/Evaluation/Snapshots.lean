import Milp.Proofs.Evaluation.Failures
import Milp.Proofs.Evaluation.Renaming
import Milp.Proofs.Scope.Snapshot

/-! Snapshots in failures. A failure arises in the scope of the evaluation, or in one that
aggregations of the expression have layered over it, and shows the bindings of that scope. An index
variable is only ever unbound where it is free and has no value from outside. -/
namespace Milp

/-- Whether a scope has further bindings than another one, of certain names only. -/
structure Scope.Extends (bound : String → Prop) (outer s : Scope) : Prop where
  visible : ∀ name, (outer.get? name).isSome = true → (s.get? name).isSome = true
  outside : ∀ name, ¬ bound name → s.get? name = outer.get? name

namespace Scope.Extends

variable {bound bound' : String → Prop} {outer s s' : Scope}

theorem refl (bound : String → Prop) (s : Scope) : s.Extends bound s := ⟨fun _ => id, fun _ _ => rfl⟩

theorem mono (h : Extends bound outer s) (hbound : ∀ name, bound name → bound' name) :
    Extends bound' outer s :=
  ⟨h.visible, fun name hname => h.outside name (mt (hbound name) hname)⟩

theorem trans (h : Extends bound outer s) (h' : Extends bound s s') : Extends bound outer s' where
  visible name hname := h'.visible name (h.visible name hname)
  outside name hname := (h'.outside name hname).trans (h.outside name hname)

theorem child (outer : Scope) (names : List String) (t : Tuple) :
    outer.Extends (· ∈ names) (outer.child (names.zip t)) where
  visible name hname := by
    rw [get?_child, Option.isSome_or, hname, Bool.or_true]
  outside name hname := by
    have hnone : (names.zip t).reverse.find? (fun b => b.1 == name) = none := by
      rw [List.find?_eq_none]
      intro b hb he
      exact hname (beq_iff_eq.mp he ▸ (List.of_mem_zip (List.mem_reverse.mp hb)).1)
    rw [get?_child, hnone, Option.map_none, Option.none_or]

/-- A name without a value has none outside either. -/
theorem get?_eq_none (h : Extends bound outer s) {name : String} (hname : s.get? name = none) :
    outer.get? name = none := by
  have hnot := mt (h.visible name)
  rw [hname] at hnot
  simpa using hnot

end Scope.Extends

namespace Error

def snapshot? : Error → Option Bindings
  | unboundIndex _ snapshot => some snapshot
  | unknownVariable _ snapshot => some snapshot
  | unknownParameter _ snapshot => some snapshot
  | arity _ _ _ _ snapshot => some snapshot
  | missingValue _ _ snapshot => some snapshot
  | invalidIndex _ _ snapshot => some snapshot
  | symbolicCondition _ snapshot => some snapshot
  | outOfRange _ _ snapshot => some snapshot
  | typeMismatch _ _ snapshot => some snapshot
  | divisionByZero snapshot => some snapshot
  | _ => none

/-- Whether a failure arose in a scope that extends another one by certain names: a snapshot is that of
the scope, and an unbound index variable is one of those that are allowed and has no value in it. -/
def ArisesIn (bound free : String → Prop) (outer : Scope) (e : Error) : Prop :=
  ∃ s : Scope, outer.Extends bound s ∧
    (∀ snapshot, e.snapshot? = some snapshot → snapshot = s.snapshot) ∧
    ∀ name snapshot, e = unboundIndex name snapshot → free name ∧ s.get? name = none

section

variable {bound bound' free free' : String → Prop} {outer : Scope} {e : Error}

theorem ArisesIn.mono (h : e.ArisesIn bound free outer) (hbound : ∀ name, bound name → bound' name)
    (hfree : ∀ name, free name → free' name) : e.ArisesIn bound' free' outer := by
  obtain ⟨s, hs, hsnapshot, hunbound⟩ := h
  exact ⟨s, hs.mono hbound, hsnapshot, fun name snapshot he =>
    (hunbound name snapshot he).imp_left (hfree name)⟩

/-- A failure in the outer scope itself, other than over an unbound index variable. -/
theorem arises_here (hsnapshot : ∀ snapshot, e.snapshot? = some snapshot → snapshot = outer.snapshot)
    (hbound : ∀ name snapshot, e ≠ unboundIndex name snapshot) : e.ArisesIn bound free outer :=
  ⟨outer, .refl _ _, hsnapshot, fun name snapshot he => absurd he (hbound name snapshot)⟩

theorem OfEnumeration.arises (h : e.OfEnumeration) : e.ArisesIn bound free outer := by
  cases e with
  | unknownSet name => exact arises_here nofun nofun
  | limitExceeded name combinations limit => exact arises_here nofun nofun
  | unsupportedAggregator op => exact arises_here nofun nofun
  | _ => exact False.elim h

theorem OfOperands.arises (h : e.OfOperands outer) : e.ArisesIn bound free outer := by
  cases e with
  | typeMismatch op detail snapshot => exact arises_here (fun _ hs => Option.some.inj hs ▸ h) nofun
  | divisionByZero snapshot => exact arises_here (fun _ hs => Option.some.inj hs ▸ h) nofun
  | _ => exact False.elim h

theorem OfReference.arises (h : e.OfReference outer) : e.ArisesIn bound free outer := by
  cases e with
  | unknownVariable name s => exact arises_here (fun _ hs => Option.some.inj hs ▸ h) nofun
  | unknownParameter name s => exact arises_here (fun _ hs => Option.some.inj hs ▸ h) nofun
  | arity kind name expected found s => exact arises_here (fun _ hs => Option.some.inj hs ▸ h) nofun
  | missingValue name index s => exact arises_here (fun _ hs => Option.some.inj hs ▸ h) nofun
  | outOfRange name index s => exact arises_here (fun _ hs => Option.some.inj hs ▸ h) nofun
  | _ => exact False.elim h

/-- A failure below the ranges of an aggregation arises below the outer scope, and what is free in it
but not bound by them is free outside. -/
theorem ArisesIn.of_child {names : List String} {t : Tuple} (hlen : t.length = names.length)
    (h : e.ArisesIn bound free (outer.child (names.zip t)))
    (hnames : ∀ name ∈ names, bound' name) (hbound : ∀ name, bound name → bound' name)
    (hfree : ∀ name, free name → name ∉ names → free' name) : e.ArisesIn bound' free' outer := by
  obtain ⟨s, hs, hsnapshot, hunbound⟩ := h
  have houter : outer.Extends bound' s :=
    ((Scope.Extends.child outer names t).mono hnames).trans (hs.mono hbound)
  refine ⟨s, houter, hsnapshot, fun name snapshot he => ?_⟩
  obtain ⟨hname, hnone⟩ := hunbound name snapshot he
  refine ⟨hfree name hname fun hmem => ?_, hnone⟩
  have hsome := hs.visible name (Scope.isSome_get?_child_zip hlen hmem)
  rw [hnone] at hsome
  cases hsome

end

end Error

variable {V : Type} {st : Setting V}

theorem Resolved.position_arises {bound free : String → Prop} (name : String) (e : Expr)
    (scope : Scope) (v : Resolved V) :
    FailsOnly (Error.ArisesIn bound free scope) (v.position name e scope) := by
  intro err h
  obtain ⟨x, _, _, rfl⟩ | ⟨s, _, rfl⟩ := position_eq_error h
  · exact Error.arises_here (fun _ hs => (Option.some.inj hs).symm) nofun
  · exact Error.arises_here (fun _ hs => (Option.some.inj hs).symm) nofun

theorem ResolvedComparison.decide_arises {bound free : String → Prop} (c : Comparison Expr)
    (scope : Scope) (r : ResolvedComparison V) :
    FailsOnly (Error.ArisesIn bound free scope) (r.decide c scope) := by
  rw [ResolvedComparison.decide]
  split
  · exact (Scalar.related_failsOnly _ _ _ scope).imp fun _ h => h.arises
  · exact .error (Error.arises_here (fun _ hs => (Option.some.inj hs).symm) (by simp))

/-- A failure of a part with some of the bound and free names of the whole. -/
private theorem Error.failsOnly_mono {α : Type} {bound bound' free free' : List String}
    {scope : Scope} {x : Except Error α}
    (h : FailsOnly (ArisesIn (· ∈ bound) (· ∈ free) scope) x) (hbound : bound ⊆ bound')
    (hfree : free ⊆ free') : FailsOnly (ArisesIn (· ∈ bound') (· ∈ free') scope) x :=
  h.imp fun _ he => he.mono (fun _ hn => hbound hn) fun _ hn => hfree hn

private theorem Condition.eval_arises {condition : Option (Comparison Expr)} {scope : Scope}
    (hsides : ∀ c, condition = some c →
      FailsOnly (Error.ArisesIn (· ∈ c.left.boundNames) (· ∈ c.left.freeNames) scope)
        (c.left.eval st scope) ∧
      FailsOnly (Error.ArisesIn (· ∈ c.right.boundNames) (· ∈ c.right.freeNames) scope)
        (c.right.eval st scope)) :
    FailsOnly (Error.ArisesIn (· ∈ boundNames condition) (· ∈ freeNames condition) scope)
      (eval st scope condition) := by
  cases condition with
  | none => exact .ok _
  | some c =>
    obtain ⟨hl, hr⟩ := hsides c rfl
    rw [eval, freeNames, boundNames]
    refine (Comparison.eval_failsOnly ?_ ?_).bind fun r => r.decide_arises c scope
    · exact Error.failsOnly_mono hl (fun _ hn => Comparison.mem_boundNames.mpr (.inl hn))
        fun _ hn => Comparison.mem_freeNames.mpr (.inl hn)
    · exact Error.failsOnly_mono hr (fun _ hn => Comparison.mem_boundNames.mpr (.inr hn))
        fun _ hn => Comparison.mem_freeNames.mpr (.inr hn)

/-- An evaluation fails in a scope that aggregations of the expression layered over the outer one. -/
theorem Expr.eval_arises (st : Setting V) (e : Expr) (scope : Scope) :
    FailsOnly (Error.ArisesIn (· ∈ e.boundNames) (· ∈ e.freeNames) scope) (e.eval st scope) := by
  induction e generalizing scope with
  | number n => exact .ok _
  | string s => exact .ok _
  | indexVar name =>
    rw [eval]
    split
    · exact .ok _
    · rename_i hnone
      refine .error ⟨scope, .refl _ _, fun _ hs => (Option.some.inj hs).symm, ?_⟩
      rintro _ _ ⟨⟩
      exact ⟨List.mem_singleton_self name, hnone⟩
  | ref kind name =>
    rw [eval]
    refine ((st.checkArity_failsOnly kind name 0 scope).imp fun _ h => h.arises).bind fun _ => ?_
    exact (st.lookup_failsOnly kind name [] scope).imp fun _ h => h.arises
  | refAt kind name positions ih =>
    rw [eval, freeNames, boundNames]
    refine ((st.checkArity_failsOnly kind name _ scope).imp fun _ h => h.arises).bind fun _ => ?_
    refine FailsOnly.bind (evalPositions_failsOnly (fun d hd => ?_) fun d _ v _ => ?_) fun index => ?_
    · exact Error.failsOnly_mono (ih d hd scope) (fun _ hn => mem_boundNamesAll.mpr ⟨d, hd, hn⟩)
        fun _ hn => mem_freeNamesAll.mpr ⟨d, hd, hn⟩
    · exact v.position_arises name d scope
    · exact (st.lookup_failsOnly kind name index scope).imp fun _ h => h.arises
  | unary op e ih =>
    rw [eval]
    exact (ih scope).bind fun v => (v.unary_failsOnly op scope).imp fun _ h => h.arises
  | binary op l r ihl ihr =>
    rw [eval, freeNames, boundNames]
    refine FailsOnly.bind ?_ fun a => FailsOnly.bind ?_ fun b =>
      (Resolved.binary_failsOnly op scope a b).imp fun _ h => h.arises
    · exact Error.failsOnly_mono (ihl scope) (List.subset_append_left _ _)
        (List.subset_append_left _ _)
    · exact Error.failsOnly_mono (ihr scope) (List.subset_append_right _ _)
        (List.subset_append_right _ _)
  | aggregate op body ranges condition ih ihc =>
    have hcondition (s : Scope) : FailsOnly
        (Error.ArisesIn (· ∈ Condition.boundNames condition) (· ∈ Condition.freeNames condition) s)
        (Condition.eval st s condition) :=
      Condition.eval_arises fun c hc => ⟨(ihc c hc).1 s, (ihc c hc).2 s⟩
    have hnames : ∀ name ∈ ranges.map Range.index,
        name ∈ Aggregation.boundNames ⟨op, body, ranges, condition⟩ :=
      fun _ => List.mem_append_left _
    rw [eval]
    refine Aggregation.eval_failsOnly (fun _ h => h.arises) (fun _ h => h.arises) (fun t ht => ?_)
      fun t ht => ?_
    · refine (ih _).imp fun err h => h.of_child (by rw [ht, List.length_map]) hnames
        (fun n hn => ?_) fun n hn hmem => Aggregation.mem_freeNames.mpr ⟨.inr hn, hmem⟩
      exact List.mem_append_right _ (List.mem_append_right _ hn)
    · refine (hcondition _).imp fun err h => h.of_child (by rw [ht, List.length_map]) hnames
        (fun n hn => ?_) fun n hn hmem => Aggregation.mem_freeNames.mpr ⟨.inl hn, hmem⟩
      exact List.mem_append_right _ (List.mem_append_left _ hn)

/-- Whether a snapshot tells the bindings of a scope, and further ones of certain names only. -/
structure Bindings.Tells (bound : String → Prop) (outer : Scope) (snapshot : Bindings) : Prop where
  nodup : (snapshot.map Prod.fst).Nodup
  visible : ∀ name, (outer.get? name).isSome = true → name ∈ snapshot.map Prod.fst
  listed : ∀ name ∈ snapshot.map Prod.fst, (outer.get? name).isSome = true ∨ bound name
  outside : ∀ name, ¬ bound name → snapshot.get? name = outer.get? name

theorem Scope.Extends.tells {bound : String → Prop} {outer s : Scope} (h : s.Extends bound outer) :
    Bindings.Tells bound s outer.snapshot where
  nodup := outer.nodup_names_snapshot
  visible name hname := mem_names_snapshot.mpr (h.visible name hname)
  listed name hname := by
    refine or_iff_not_imp_right.mpr fun hbound => ?_
    rw [← h.outside name hbound]
    exact mem_names_snapshot.mp hname
  outside name hname := (outer.get?_snapshot name).trans (h.outside name hname)

/-- Where all free index variables have a value, none is unbound in a failure. -/
private theorem Expr.eval_bound (e : Expr) (scope : Scope)
    (h : ∀ name ∈ e.freeNames, (scope.get? name).isSome = true) :
    FailsOnly (fun err => ∀ name snapshot, err ≠ .unboundIndex name snapshot) (e.eval st scope) := by
  intro err herr name snapshot hunbound
  obtain ⟨s, hs, -, hfree⟩ := e.eval_arises st scope err herr
  obtain ⟨hname, hnone⟩ := hfree name snapshot hunbound
  have hsome := h name hname
  rw [hs.get?_eq_none hnone] at hsome
  cases hsome

private theorem Constraint.expand_closed (c : Constraint)
    (h : ∀ name ∈ c.openNames, name ∈ c.quantifiers.map Quantifier.index) :
    FailsOnly (fun err => ∀ name snapshot, err ≠ .unboundIndex name snapshot) (c.expand st) := by
  have hsides (d : Comparison Expr) (hd : Comparison.freeNames d ⊆ c.openNames) (scope : Scope)
      (hscope : ∀ q ∈ c.quantifiers, (scope.get? q.index).isSome = true) :
      FailsOnly (fun err => ∀ name snapshot, err ≠ .unboundIndex name snapshot)
        (Comparison.eval st scope d) := by
    have hvisible (name : String) (hname : name ∈ Comparison.freeNames d) :
        (scope.get? name).isSome = true := by
      obtain ⟨q, hq, rfl⟩ := List.mem_map.mp (h name (hd hname))
      exact hscope q hq
    refine Comparison.eval_failsOnly (d.left.eval_bound scope fun name hname => ?_)
      (d.right.eval_bound scope fun name hname => ?_)
    · exact hvisible name (Comparison.mem_freeNames.mpr (.inl hname))
    · exact hvisible name (Comparison.mem_freeNames.mpr (.inr hname))
  refine expand_failsOnly (fun e he => ?_) (hsides c.body (List.subset_append_right _ _))
    fun d hd scope hscope => ?_
  · rintro name snapshot rfl
    exact he
  · have hopen : Comparison.freeNames d ⊆ c.openNames := fun name hname =>
      List.mem_append_left _ (List.mem_flatMap.mpr ⟨d, hd, hname⟩)
    rw [Condition.eval]
    refine (hsides d hopen scope hscope).bind fun r err herr name snapshot hunbound => ?_
    -- A comparison of two values never names an index variable.
    have harises : err.ArisesIn (fun _ => False) (fun _ => False) scope :=
      r.decide_arises d scope err herr
    obtain ⟨s, -, -, hfree⟩ := harises
    exact (hfree name snapshot hunbound).1

/-- A snapshot in a failure lists no name twice and tells every binding of the scope that is evaluated
in, apart from what aggregations of the expression bind. An index variable is only ever unbound where
it is free and has no value, which the snapshot bears out; so it is never where all free index
variables have one, nor in a constraint that quantifies all of them. -/
theorem Expr.eval_snapshots (st : Setting V) :
    (∀ (e : Expr) (s : Scope) (err : Error) (snapshot : Bindings),
      e.eval st s = .error err → err.snapshot? = some snapshot →
      Bindings.Tells (· ∈ e.boundNames) s snapshot) ∧
    (∀ (e : Expr) (s : Scope) (name : String) (snapshot : Bindings),
      e.eval st s = .error (.unboundIndex name snapshot) →
      name ∈ e.freeNames ∧ s.get? name = none ∧ name ∉ snapshot.map Prod.fst) ∧
    (∀ (e : Expr) (s : Scope), (∀ name ∈ e.freeNames, (s.get? name).isSome = true) →
      ∀ name snapshot, e.eval st s ≠ .error (.unboundIndex name snapshot)) ∧
    ∀ c : Constraint, (∀ name ∈ c.openNames, name ∈ c.quantifiers.map Quantifier.index) →
      ∀ name snapshot, c.expand st ≠ .error (.unboundIndex name snapshot) := by
  refine ⟨fun e s err snapshot herr hsnapshot => ?_, fun e s name snapshot herr => ?_,
    fun e s h name snapshot herr => ?_, fun c h name snapshot herr => ?_⟩
  · obtain ⟨inner, hs, htrue, -⟩ := e.eval_arises st s err herr
    rw [htrue snapshot hsnapshot]
    exact hs.tells
  · obtain ⟨inner, hs, htrue, hfree⟩ := e.eval_arises st s _ herr
    obtain ⟨hname, hnone⟩ := hfree name snapshot rfl
    refine ⟨hname, hs.get?_eq_none hnone, ?_⟩
    rw [htrue snapshot rfl, Scope.mem_names_snapshot, hnone]
    exact Bool.false_ne_true
  · exact e.eval_bound s h _ herr name snapshot rfl
  · exact c.expand_closed h _ herr name snapshot rfl

/-- A failure below a sum that rebinds an outer `i`, and one over a `k` without a value. -/
theorem eval_snapshots_shadowed :
    shadowed.snapshot = [("k", .int 2), ("j", .str "a"), ("i", .int 7)] ∧
    (gaps .ge).eval Constraint.pairing shadowed =
      .error (.divisionByZero [("k", .int 2), ("j", .str "a"), ("i", .int 2)]) ∧
    Bindings.Tells (· ∈ (gaps .ge).boundNames) shadowed
      [("k", .int 2), ("j", .str "a"), ("i", .int 2)] ∧
    (gaps .ge).eval Constraint.pairing [[("j", .str "a")]] =
      .error (.unboundIndex "k" [("j", .str "a"), ("i", .int 1)]) ∧
    ("k" ∈ (gaps .ge).freeNames ∧ Scope.get? [[("j", .str "a")]] "k" = none ∧
      "k" ∉ ["j", "i"]) ∧
    (∀ name ∈ (gaps .ge).freeNames, (shadowed.get? name).isSome = true) ∧
    (∀ name snapshot, (gaps .ge).eval Constraint.pairing shadowed ≠
      .error (.unboundIndex name snapshot)) ∧
    Constraint.increasing.quantifiers ≠ [] ∧
    (∀ name ∈ Constraint.increasing.openNames,
      name ∈ Constraint.increasing.quantifiers.map Quantifier.index) ∧
    ∀ name snapshot, Constraint.increasing.expand Constraint.pairing ≠
      .error (.unboundIndex name snapshot) := by
  obtain ⟨htells, hfree, hbound, hexpand⟩ := Expr.eval_snapshots Constraint.pairing
  have hbelow : (gaps .ge).eval Constraint.pairing shadowed =
      .error (.divisionByZero [("k", .int 2), ("j", .str "a"), ("i", .int 2)]) := rfl
  have hunbound : (gaps .ge).eval Constraint.pairing [[("j", .str "a")]] =
      .error (.unboundIndex "k" [("j", .str "a"), ("i", .int 1)]) := rfl
  have hvisible : ∀ name ∈ (gaps .ge).freeNames, (shadowed.get? name).isSome = true := by decide
  have hopen : ∀ name ∈ Constraint.increasing.openNames,
      name ∈ Constraint.increasing.quantifiers.map Quantifier.index := by decide
  exact ⟨rfl, hbelow, htells _ _ _ _ hbelow rfl, hunbound, hfree _ _ _ _ hunbound, hvisible,
    hbound _ _ hvisible, nofun, hopen, hexpand _ hopen⟩

end Milp
