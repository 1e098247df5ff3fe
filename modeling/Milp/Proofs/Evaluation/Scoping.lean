import Milp.Proofs.Evaluation.Agreement
import Milp.Proofs.Scope

/-! Evaluation in two scopes. What an expression gives depends on the values of its free index
variables only, and a renaming of these that the scopes follow leaves it alone; a failure may show
another snapshot, and other texts where something was renamed. -/
namespace Milp

/-- Whether two computations have the same result, or fail in ways that are related. -/
inductive AlikeUpTo {ε α : Type} (r : ε → ε → Prop) : Except ε α → Except ε α → Prop
  | ok (a : α) : AlikeUpTo r (.ok a) (.ok a)
  | error {e e' : ε} (h : r e e') : AlikeUpTo r (.error e) (.error e')

namespace AlikeUpTo

variable {ε α β σ : Type} {r : ε → ε → Prop}

theorem refl (hr : ∀ e, r e e) (x : Except ε α) : AlikeUpTo r x x := by
  cases x with
  | ok a => exact .ok a
  | error e => exact .error (hr e)

/-- What follows a computation only runs on its result. -/
theorem bind_of_ok {x y : Except ε α} {f g : α → Except ε β} (h : AlikeUpTo r x y)
    (hf : ∀ a, x = .ok a → AlikeUpTo r (f a) (g a)) : AlikeUpTo r (x >>= f) (y >>= g) := by
  cases h with
  | ok a => exact hf a rfl
  | error h => exact .error h

theorem bind {x y : Except ε α} {f g : α → Except ε β} (h : AlikeUpTo r x y)
    (hf : ∀ a, AlikeUpTo r (f a) (g a)) : AlikeUpTo r (x >>= f) (y >>= g) :=
  h.bind_of_ok fun a _ => hf a

theorem toOption_eq {x y : Except ε α} (h : AlikeUpTo r x y) : y.toOption = x.toOption := by
  cases h <;> rfl

/-- What is alike to a result is that result. -/
theorem eq_ok {x : Except ε α} {a : α} (h : AlikeUpTo r x (.ok a)) : x = .ok a := by
  cases h
  rfl

theorem map {x y : Except ε α} (h : AlikeUpTo r x y) (f : α → β) :
    AlikeUpTo r (x.map f) (y.map f) := by
  cases h with
  | ok a => exact .ok (f a)
  | error h => exact .error h

theorem mapM {f g : α → Except ε β} (h : ∀ a, AlikeUpTo r (f a) (g a)) (as : List α) :
    AlikeUpTo r (as.mapM f) (as.mapM g) := by
  induction as with
  | nil => exact .ok _
  | cons a as ih =>
    rw [List.mapM_cons, List.mapM_cons]
    exact (h a).bind fun b => ih.bind fun bs => .ok _

theorem foldlM {f g : σ → α → Except ε σ} (h : ∀ s a, AlikeUpTo r (f s a) (g s a)) (as : List α)
    (s : σ) : AlikeUpTo r (as.foldlM f s) (as.foldlM g s) := by
  induction as generalizing s with
  | nil => exact .ok _
  | cons a as ih =>
    rw [List.foldlM_cons, List.foldlM_cons]
    exact (h s a).bind fun s' => ih s'

end AlikeUpTo

namespace Error

def bare : Error → Error
  | unboundIndex name _ => unboundIndex name []
  | unknownVariable name _ => unknownVariable name []
  | unknownParameter name _ => unknownParameter name []
  | arity kind name expected found _ => arity kind name expected found []
  | missingValue name index _ => missingValue name index []
  | invalidIndex name detail _ => invalidIndex name detail []
  | symbolicCondition condition _ => symbolicCondition condition []
  | outOfRange name index _ => outOfRange name index []
  | typeMismatch op detail _ => typeMismatch op detail []
  | divisionByZero _ => divisionByZero []
  | e => e

def SameBare (a b : Error) : Prop := a.bare = b.bare

/-- Whether two failures are of one kind, whatever they report. -/
def SameKind (a b : Error) : Prop := a.ctorIdx = b.ctorIdx

theorem SameKind.refl (e : Error) : SameKind e e := rfl

theorem ctorIdx_bare (e : Error) : e.bare.ctorIdx = e.ctorIdx := by
  cases e <;> rfl

theorem SameBare.sameKind {a b : Error} (h : a.SameBare b) : a.SameKind b := by
  rw [SameKind, ← a.ctorIdx_bare, h, ctorIdx_bare]

/-- Whether a relation between failures cannot tell a renaming: it sees no snapshots, and no texts
unless nothing is renamed. -/
structure Unseen (r : Error → Error → Prop) (ρ : Renaming) : Prop where
  snapshots : ∀ a b, SameBare a b → r a b
  texts : ρ = id ∨ ∀ a b, SameKind a b → r a b

theorem Unseen.refl {r : Error → Error → Prop} {ρ : Renaming} (h : Unseen r ρ) (e : Error) :
    r e e := h.snapshots e e rfl

/-- Failures of one kind are related that show the same texts when nothing is renamed. -/
theorem Unseen.relates {r : Error → Error → Prop} {ρ : Renaming} (h : Unseen r ρ) {a b : Error}
    (hkind : SameKind a b) (hbare : ρ = id → SameBare a b) : r a b := by
  rcases h.texts with hid | htexts
  · exact h.snapshots a b (hbare hid)
  · exact htexts a b hkind

/-- The kind of a failure tells no renaming. -/
theorem Unseen.sameKind (ρ : Renaming) : Unseen SameKind ρ :=
  ⟨fun _ _ h => h.sameKind, .inr fun _ _ h => h⟩

/-- Without their snapshots failures tell nothing when nothing is renamed. -/
theorem Unseen.sameBare : Unseen SameBare id :=
  ⟨fun _ _ h => h, .inl rfl⟩

theorem Unseen.under {r : Error → Error → Prop} {ρ : Renaming} (h : Unseen r ρ)
    (bound : List String) : Unseen r (ρ.under bound) where
  snapshots := h.snapshots
  texts := by
    refine h.texts.imp_left ?_
    rintro rfl
    exact Renaming.under_id bound

end Error

variable {V : Type} {r : Error → Error → Prop} {ρ : Renaming} {s s' : Scope}

/-! Operators and lookups read of a scope nothing but its snapshot, and that on failures only. -/

namespace Scalar

theorem floating_scoped (hr : Error.Unseen r ρ) (op : BinaryOp) (x y : Float) :
    AlikeUpTo r (floating op x y s) (floating op x y s') := by
  cases op with
  | add => exact .ok _
  | sub => exact .ok _
  | mul => exact .ok _
  | div =>
    rw [floating, floating]
    split
    · exact .error (hr.snapshots _ _ rfl)
    · exact .ok _

theorem unary_scoped (hr : Error.Unseen r ρ) (op : UnaryOp) (v : Scalar) :
    AlikeUpTo r (v.unary op s) (v.unary op s') := by
  rw [unary.eq_def, unary.eq_def]
  split
  · exact .error (hr.snapshots _ _ rfl)
  · exact .ok _
  · exact .refl hr.refl _

theorem binary_scoped (hr : Error.Unseen r ρ) (op : BinaryOp) (a b : Scalar) :
    AlikeUpTo r (a.binary op b s) (a.binary op b s') := by
  rw [binary.eq_def, binary.eq_def]
  split
  · split
    · exact .ok _
    · exact floating_scoped hr op _ _
  · exact floating_scoped hr op _ _
  · exact floating_scoped hr op _ _
  · exact floating_scoped hr op _ _
  · exact .error (hr.snapshots _ _ rfl)

theorem related_scoped (hr : Error.Unseen r ρ) (relation : Relation) (a b : Scalar) :
    AlikeUpTo r (related relation a b s) (related relation a b s') := by
  rw [related.eq_def, related.eq_def]
  split
  · exact .ok _
  · exact .ok _
  · split
    · exact .error (hr.snapshots _ _ rfl)
    · exact .refl hr.refl _

end Scalar

namespace Resolved

theorem lift_scoped (hr : Error.Unseen r ρ) (op : String) (v : Resolved V) :
    AlikeUpTo r (v.lift op s) (v.lift op s') := by
  rw [lift.eq_def, lift.eq_def]
  split
  · exact .ok _
  · exact .ok _
  · exact .ok _
  · exact .error (hr.snapshots _ _ rfl)

theorem unary_scoped (hr : Error.Unseen r ρ) (op : UnaryOp) (v : Resolved V) :
    AlikeUpTo r (v.unary op s) (v.unary op s') := by
  cases v with
  | host a => exact (a.unary_scoped hr op).bind fun _ => .ok _
  | symbolic e => exact .refl hr.refl _

theorem binary_scoped (hr : Error.Unseen r ρ) (op : BinaryOp) (a b : Resolved V) :
    AlikeUpTo r (binary op s a b) (binary op s' a b) := by
  rw [binary.eq_def, binary.eq_def]
  split
  · exact (Scalar.binary_scoped hr op _ _).bind fun _ => .ok _
  · refine (lift_scoped hr op.name _).bind fun _ => ?_
    exact (lift_scoped hr op.name _).bind fun _ => .ok _

theorem sum_scoped (hr : Error.Unseen r ρ) (vs : List (Resolved V)) :
    AlikeUpTo r (sum s vs) (sum s' vs) := by
  rw [sum.eq_def, sum.eq_def]
  split
  · exact .ok _
  · exact .ok _
  · split
    · refine (AlikeUpTo.foldlM (fun total a => ?_) _ _).bind fun _ => .ok _
      exact total.binary_scoped hr .add a
    · exact (AlikeUpTo.mapM (lift_scoped hr _) _).bind fun _ => .ok _

/-- A failure over an index position shows the text of what stands there. -/
theorem position_scoped (hr : Error.Unseen r ρ) (name : String) (e : Expr) (v : Resolved V) :
    AlikeUpTo r (v.position name e s) (v.position name (e.rename ρ) s') := by
  have htext (message : String → String) :
      r (.invalidIndex name (message e.text) s.snapshot)
        (.invalidIndex name (message (e.rename ρ).text) s'.snapshot) := by
    refine hr.relates rfl fun hid => ?_
    rw [hid, e.rename_id]
    rfl
  cases v with
  | host a =>
    rw [position, position]
    cases a.element? with
    | some x => exact .ok x
    | none =>
      exact .error (htext fun t => quoted t ++ " evaluated to " ++ a.kind ++ " " ++ quoted a.text)
  | symbolic x => exact .error (htext fun t => quoted t ++ " references a decision variable")

end Resolved

namespace Setting

variable (st : Setting V)

theorem dimension_scoped (hr : Error.Unseen r ρ) (kind : RefKind) (name : String) :
    AlikeUpTo r (st.dimension kind name s) (st.dimension kind name s') := by
  cases kind with
  | «variable» =>
    rw [dimension, dimension]
    cases st.vars.get? name with
    | some v => exact .ok _
    | none => exact .error (hr.snapshots _ _ rfl)
  | parameter =>
    rw [dimension, dimension]
    cases st.parameters.get? name with
    | some p => exact .ok _
    | none => exact .error (hr.snapshots _ _ rfl)

theorem checkArity_scoped (hr : Error.Unseen r ρ) (kind : RefKind) (name : String) (found : Nat) :
    AlikeUpTo r (st.checkArity kind name found s) (st.checkArity kind name found s') := by
  rw [checkArity_eq, checkArity_eq]
  refine (st.dimension_scoped hr kind name).bind fun expected => ?_
  by_cases h : found ≠ expected
  · rw [if_pos h, if_pos h]
    exact .error (hr.snapshots _ _ rfl)
  · rw [if_neg h, if_neg h]
    exact .ok ()

theorem lookup_scoped (hr : Error.Unseen r ρ) (kind : RefKind) (name : String) (index : Tuple) :
    AlikeUpTo r (st.lookup kind name index s) (st.lookup kind name index s') := by
  cases kind with
  | «variable» =>
    rw [lookup, lookup]
    cases st.handle name index with
    | some v => exact .ok _
    | none => exact .error (hr.snapshots _ _ rfl)
  | parameter =>
    rw [lookup, lookup]
    cases (st.parameters.get? name).bind fun p => p.get? index with
    | some v => exact .ok _
    | none => exact .error (hr.snapshots _ _ rfl)

end Setting

/-- A failure over a condition shows its text. -/
theorem ResolvedComparison.decide_scoped (hr : Error.Unseen r ρ) (c : Comparison Expr)
    (x : ResolvedComparison V) :
    AlikeUpTo r (decide c s x) (decide (Comparison.rename ρ c) s' x) := by
  rw [decide.eq_def, decide.eq_def]
  split
  · exact Scalar.related_scoped hr _ _ _
  · refine .error (hr.relates rfl fun hid => ?_)
    rw [hid, c.rename_id]
    rfl

section

variable {st : Setting V}

private theorem Comparison.eval_scoped {c : Comparison Expr}
    (h : ρ.Fits (freeNames c) (indexNames c) s s')
    (hleft : ρ.Fits c.left.freeNames c.left.indexNames s s' →
      AlikeUpTo r (c.left.eval st s) ((c.left.rename ρ).eval st s'))
    (hright : ρ.Fits c.right.freeNames c.right.indexNames s s' →
      AlikeUpTo r (c.right.eval st s) ((c.right.rename ρ).eval st s')) :
    AlikeUpTo r (eval st s c) (eval st s' (rename ρ c)) := by
  obtain ⟨form, left, relation, right⟩ := c
  have hl := hleft h.left
  have hr := hright h.right
  rw [rename, eval, eval]
  exact hl.bind fun _ => hr.bind fun _ => .ok _

private theorem Condition.eval_scoped (hr : Error.Unseen r ρ)
    {condition : Option (Comparison Expr)}
    (h : ρ.Fits (freeNames condition) (indexNames condition) s s')
    (hsides : ∀ c, condition = some c →
      (ρ.Fits c.left.freeNames c.left.indexNames s s' →
        AlikeUpTo r (c.left.eval st s) ((c.left.rename ρ).eval st s')) ∧
      (ρ.Fits c.right.freeNames c.right.indexNames s s' →
        AlikeUpTo r (c.right.eval st s) ((c.right.rename ρ).eval st s'))) :
    AlikeUpTo r (eval st s condition) (eval st s' (rename ρ condition)) := by
  cases condition with
  | none =>
    rw [rename, eval, eval]
    exact .ok _
  | some c =>
    obtain ⟨hleft, hright⟩ := hsides c rfl
    rw [rename, eval, eval]
    exact (Comparison.eval_scoped h hleft hright).bind fun x => x.decide_scoped hr c

private theorem Expr.evalPositions_scoped (hr : Error.Unseen r ρ) {name : String}
    {positions : List Expr}
    (h : ∀ e ∈ positions, AlikeUpTo r (e.eval st s) ((e.rename ρ).eval st s')) :
    AlikeUpTo r (evalPositions st s name positions)
      (evalPositions st s' name (renameAll ρ positions)) := by
  induction positions with
  | nil =>
    rw [renameAll, evalPositions, evalPositions]
    exact .ok _
  | cons e es ih =>
    have htail := ih fun d hd => h d (List.mem_cons_of_mem _ hd)
    rw [renameAll, evalPositions, evalPositions]
    refine (h e List.mem_cons_self).bind fun v => ?_
    exact (v.position_scoped hr name e).bind fun x => htail.bind fun xs => .ok _

namespace Aggregation

variable {body body' : Expr} {ranges ranges' : List Range}
  {condition condition' : Option (Comparison Expr)}

private theorem terms_scoped {ts : List Tuple}
    (hcondition : ∀ t ∈ ts, AlikeUpTo r (Condition.eval st (inner s ranges t) condition)
      (Condition.eval st (inner s' ranges' t) condition'))
    (hbody : ∀ t ∈ ts, AlikeUpTo r (body.eval st (inner s ranges t))
      (body'.eval st (inner s' ranges' t))) :
    AlikeUpTo r (terms st s body ranges condition ts)
      (terms st s' body' ranges' condition' ts) := by
  induction ts with
  | nil => exact .ok _
  | cons t ts ih =>
    have htail := ih (fun u hu => hcondition u (List.mem_cons_of_mem _ hu))
      fun u hu => hbody u (List.mem_cons_of_mem _ hu)
    rw [terms, terms]
    refine (hcondition t List.mem_cons_self).bind fun holds => ?_
    cases holds with
    | false => exact htail
    | true => exact (hbody t List.mem_cons_self).bind fun v => htail.bind fun vs => .ok _

/-- Two aggregations over the same sets are evaluated alike when their conditions and their bodies
are, in the scopes of every tuple. -/
theorem eval_scoped (hr : Error.Unseen r ρ) {op : Aggregator}
    (hsets : ranges'.map Range.set = ranges.map Range.set)
    (htext : ∀ size limit,
      r (.limitExceeded (text ⟨.sum, body, ranges, condition⟩) size limit)
        (.limitExceeded (text ⟨.sum, body', ranges', condition'⟩) size limit))
    (hcondition : ∀ t : Tuple, t.length = ranges.length →
      AlikeUpTo r (Condition.eval st (inner s ranges t) condition)
        (Condition.eval st (inner s' ranges' t) condition'))
    (hbody : ∀ t : Tuple, t.length = ranges.length →
      AlikeUpTo r (body.eval st (inner s ranges t)) (body'.eval st (inner s' ranges' t))) :
    AlikeUpTo r (eval st s ⟨op, body, ranges, condition⟩)
      (eval st s' ⟨op, body', ranges', condition'⟩) := by
  by_cases hop : op = .sum
  · subst hop
    rw [eval_sum_limited, eval_sum_limited, hsets]
    refine (AlikeUpTo.refl hr.refl _).bind_of_ok fun axes haxes => ?_
    have hlen (t : Tuple) (ht : t ∈ tuples axes) : t.length = ranges.length := by
      rw [length_of_mem_tuples ht, Setting.length_of_axes haxes, List.length_map]
    have hlimit : AlikeUpTo r
        (withinLimit (text ⟨.sum, body, ranges, condition⟩) axes st.limits.terms)
        (withinLimit (text ⟨.sum, body', ranges', condition'⟩) axes st.limits.terms) := by
      rw [withinLimit, withinLimit]
      cases exceeded? axes st.limits.terms with
      | none => exact .ok ()
      | some p => exact .error (htext p.1 p.2)
    refine hlimit.bind fun _ => ?_
    refine AlikeUpTo.bind ?_ fun vs => Resolved.sum_scoped hr vs
    exact terms_scoped (fun t ht => hcondition t (hlen t ht)) fun t ht => hbody t (hlen t ht)
  · rw [eval, eval, if_neg hop, if_neg hop]
    exact .refl hr.refl _

end Aggregation

/-- A renamed expression is evaluated alike in a scope that fits the renaming. -/
theorem Expr.eval_rename (hr : Error.Unseen r ρ) (e : Expr)
    (h : ρ.Fits e.freeNames e.indexNames s s') :
    AlikeUpTo r (e.eval st s) ((e.rename ρ).eval st s') := by
  induction e generalizing ρ s s' with
  | number n =>
    rw [rename, eval, eval]
    exact .ok _
  | string text =>
    rw [rename, eval, eval]
    exact .ok _
  | indexVar name =>
    rw [rename, eval, eval, h.lookup name List.mem_cons_self]
    cases s.get? name with
    | some x => exact .ok _
    | none =>
      refine .error (hr.relates rfl fun hid => ?_)
      rw [hid]
      rfl
  | ref kind name =>
    rw [rename, eval, eval]
    exact (st.checkArity_scoped hr kind name 0).bind fun _ => st.lookup_scoped hr kind name []
  | refAt kind name positions ih =>
    have hpositions : AlikeUpTo r (evalPositions st s name positions)
        (evalPositions st s' name (renameAll ρ positions)) :=
      evalPositions_scoped hr fun d hd => ih d hd hr <| h.mono
        (fun n hn => mem_freeNamesAll.mpr ⟨d, hd, hn⟩) fun n hn => mem_indexNamesAll.mpr ⟨d, hd, hn⟩
    have hlength : (renameAll ρ positions).length = positions.length := by
      rw [renameAll_eq_map, List.length_map]
    rw [rename, eval, eval, hlength]
    refine (st.checkArity_scoped hr kind name _).bind fun _ => ?_
    exact hpositions.bind fun index => st.lookup_scoped hr kind name index
  | unary op e ih =>
    rw [rename, eval, eval]
    exact (ih hr h).bind fun v => v.unary_scoped hr op
  | binary op left right ihl ihr =>
    have hleft := ihl hr h.left
    have hright := ihr hr h.right
    rw [rename, eval, eval]
    exact hleft.bind fun a => hright.bind fun b => a.binary_scoped hr op b
  | aggregate op body ranges condition ih ihc =>
    have hunder := hr.under (ranges.map Range.index)
    -- Inside, the ranges shield their names: what is free there is free outside or bound here.
    have hinner (t : Tuple) (ht : t.length = ranges.length) :
        (ρ.under (ranges.map Range.index)).Fits (Condition.freeNames condition ++ body.freeNames)
          (Condition.indexNames condition ++ body.indexNames)
          (Aggregation.inner s ranges t) (Aggregation.inner s' ranges t) := by
      refine h.child (fun n hn hmem => ?_) (List.subset_append_left _ _)
        (List.subset_append_right _ _) (by rw [ht, List.length_map])
      exact Aggregation.mem_freeNames.mpr ⟨List.mem_append.mp hn, hmem⟩
    rw [rename, Aggregation.rename, eval, eval]
    refine Aggregation.eval_scoped hr rfl (fun size limit => ?_) (fun t ht => ?_) fun t ht => ?_
    · refine hr.relates rfl fun hid => ?_
      rw [hid, Renaming.under_id, body.rename_id, Condition.rename_id]
      rfl
    · refine Condition.eval_scoped hunder (hinner t ht).left fun c hc => ?_
      obtain ⟨ihl, ihr⟩ := ihc c hc
      exact ⟨ihl hunder, ihr hunder⟩
    · exact ih hunder (hinner t ht).right

theorem Comparison.eval_rename (hr : Error.Unseen r ρ) (c : Comparison Expr)
    (h : ρ.Fits (freeNames c) (indexNames c) s s') :
    AlikeUpTo r (eval st s c) (eval st s' (rename ρ c)) :=
  eval_scoped h (c.left.eval_rename hr) (c.right.eval_rename hr)

theorem Condition.eval_rename (hr : Error.Unseen r ρ) (condition : Option (Comparison Expr))
    (h : ρ.Fits (freeNames condition) (indexNames condition) s s') :
    AlikeUpTo r (eval st s condition) (eval st s' (rename ρ condition)) :=
  eval_scoped hr h fun c _ => ⟨c.left.eval_rename hr, c.right.eval_rename hr⟩

/-! In scopes that give the same value to every name, everything is evaluated alike up to
snapshots. -/

theorem Expr.eval_same (e : Expr) (h : ∀ name, s'.get? name = s.get? name) :
    AlikeUpTo Error.SameBare (e.eval st s) (e.eval st s') := by
  have halike : AlikeUpTo Error.SameBare (e.eval st s) ((e.rename id).eval st s') :=
    e.eval_rename .sameBare (.of_same h)
  rwa [e.rename_id] at halike

theorem Comparison.eval_same (c : Comparison Expr) (h : ∀ name, s'.get? name = s.get? name) :
    AlikeUpTo Error.SameBare (eval st s c) (eval st s' c) := by
  have halike : AlikeUpTo Error.SameBare (eval st s c) (eval st s' (rename id c)) :=
    c.eval_rename .sameBare (.of_same h)
  rwa [c.rename_id] at halike

theorem Condition.eval_same (condition : Option (Comparison Expr))
    (h : ∀ name, s'.get? name = s.get? name) :
    AlikeUpTo Error.SameBare (eval st s condition) (eval st s' condition) := by
  have halike : AlikeUpTo Error.SameBare (eval st s condition) (eval st s' (rename id condition)) :=
    eval_rename .sameBare condition (.of_same h)
  rwa [rename_id] at halike

end

/-- Evaluation reads a scope through free index variables only. In two scopes that give the same
value, or none, to each of them, an expression has the same value or fails alike up to snapshots. -/
theorem Expr.eval_scopes (st : Setting V) (e : Expr) (s s' : Scope)
    (h : ∀ name ∈ e.freeNames, s'.get? name = s.get? name) :
    AlikeUpTo Error.SameBare (e.eval st s) (e.eval st s') := by
  have hr : Error.Unseen Error.SameBare id := ⟨fun _ _ hbare => hbare, .inl rfl⟩
  have halike : AlikeUpTo Error.SameBare (e.eval st s) ((e.rename id).eval st s') :=
    e.eval_rename hr ⟨h, fun _ _ => .inl rfl⟩
  rwa [e.rename_id] at halike

/-- A sum that binds `i` over a `k` from outside, with terms that fail where both are equal. -/
def gaps (relation : Relation) : Expr :=
  .sum (.var "x" [.indexVar "i" / (.indexVar "i" - .indexVar "k")]) [⟨"i", "I"⟩]
    (some (.index (.indexVar "i") relation (.indexVar "k")))

def level : Scope := [[("k", .int 2)]]

def shadowed : Scope := [[("i", .int 7), ("k", .int 2)], [("k", .int 3), ("j", .str "a")]]

theorem eval_scopes_shadowed :
    (∀ name ∈ (gaps .gt).freeNames, shadowed.get? name = level.get? name) ∧
    (∀ name ∈ (gaps .ge).freeNames, shadowed.get? name = level.get? name) ∧
    (gaps .gt).eval Constraint.pairing level = .ok (.symbolic (.var [.int 3])) ∧
    (gaps .ge).eval Constraint.pairing level =
      .error (.divisionByZero [("k", .int 2), ("i", .int 2)]) ∧
    AlikeUpTo Error.SameBare ((gaps .gt).eval Constraint.pairing level)
      ((gaps .gt).eval Constraint.pairing shadowed) ∧
    AlikeUpTo Error.SameBare ((gaps .ge).eval Constraint.pairing level)
      ((gaps .ge).eval Constraint.pairing shadowed) := by
  have hgt : ∀ name ∈ (gaps .gt).freeNames, shadowed.get? name = level.get? name := by decide
  have hge : ∀ name ∈ (gaps .ge).freeNames, shadowed.get? name = level.get? name := by decide
  exact ⟨hgt, hge, rfl, rfl, (gaps .gt).eval_scopes _ _ _ hgt, (gaps .ge).eval_scopes _ _ _ hge⟩

end Milp
