import Milp.Proofs.Compilation.Fresh
import Milp.Proofs.Compilation.Report
import Milp.Proofs.Storage.Representation

/-! Histories of calls to a stored model, in any order and with refused calls in between. What can
be looked up afterwards is what was accepted on the way: the members of a family are the product of
the sets it was declared over, and the row at a key is the one that was added there. -/
namespace Milp

variable {σ τ V : Type}

namespace Target

/-- The state after calls were made in order, whether or not they were accepted. -/
def after (t : Target σ V) (s : σ) (cs : List (Call V)) : σ :=
  cs.foldl (fun s c => (t.receive c s).2) s

/-- Whether a call is among those of a history and was accepted when its turn came. -/
def Granted (t : Target σ V) (s : σ) (cs : List (Call V)) (c : Call V) : Prop :=
  ∃ before later, cs = before ++ c :: later ∧ (t.receive c (t.after s before)).1 = .ok ()

variable {t : Target σ V} {s : σ} {cs : List (Call V)} {c d : Call V}

theorem after_cons (t : Target σ V) (s : σ) (c : Call V) (cs : List (Call V)) :
    t.after s (c :: cs) = t.after (t.receive c s).2 cs := rfl

theorem after_append_singleton (t : Target σ V) (s : σ) (cs : List (Call V)) (c : Call V) :
    t.after s (cs ++ [c]) = (t.receive c (t.after s cs)).2 := by
  rw [after, List.foldl_append]
  rfl

theorem granted_append_singleton :
    t.Granted s (cs ++ [d]) c ↔
      t.Granted s cs c ∨ d = c ∧ (t.receive d (t.after s cs)).1 = .ok () := by
  constructor
  · rintro ⟨before, later, hsplit, haccepted⟩
    rcases append_singleton_eq_append_cons.mp hsplit with ⟨rfl, rfl, rfl⟩ | ⟨rest, rfl, rfl⟩
    · exact .inr ⟨rfl, haccepted⟩
    · exact .inl ⟨before, rest, rfl, haccepted⟩
  · rintro (⟨before, later, rfl, haccepted⟩ | ⟨rfl, haccepted⟩)
    · exact ⟨before, later ++ [d], by simp, haccepted⟩
    · exact ⟨cs, [], rfl, haccepted⟩

theorem Granted.append (h : t.Granted s cs c) (more : List (Call V)) :
    t.Granted s (cs ++ more) c := by
  obtain ⟨before, later, rfl, haccepted⟩ := h
  exact ⟨before, later ++ more, by simp, haccepted⟩

/-- A delivery ends in the state after the calls that it made. -/
theorem state_deliver (t : Target σ V) (cs : List (Call V)) (s : σ) :
    (t.deliver cs s).state = t.after s (t.deliver cs s).made := by
  induction cs generalizing s with
  | nil => rfl
  | cons c cs ih =>
    rw [deliver]
    cases hc : t.receive c s with
    | mk answer s₁ =>
      have hs₁ : (t.receive c s).2 = s₁ := by rw [hc]
      cases answer with
      | error e => exact hs₁.symm
      | ok _ =>
        change (t.deliver cs s₁).state = t.after s (c :: (t.deliver cs s₁).made)
        rw [after_cons, hs₁]
        exact ih s₁

theorem Refines.after {t' : Target τ V} {rep : σ → τ} (h : t'.Refines t rep) (s : σ)
    (cs : List (Call V)) : t'.after (rep s) cs = rep (t.after s cs) := by
  induction cs generalizing s with
  | nil => rfl
  | cons c cs ih =>
    rw [after_cons, h.receive]
    exact ih _

theorem Refines.granted {t' : Target τ V} {rep : σ → τ} (h : t'.Refines t rep) :
    t'.Granted (rep s) cs c ↔ t.Granted s cs c := by
  simp only [Granted, h.after, h.receive]

end Target

theorem Row.call_injective : Function.Injective Row.call := by
  rintro ⟨constraint, inst⟩ ⟨constraint', inst'⟩ h
  cases h
  rfl

namespace CompiledModel

inductive Step (m : CompiledModel) : Call Member → CompiledModel → Prop
  | declareSet (s : IndexSet) : Step m (.declareSet s) { m with sets := m.sets.insert s }
  | declareParameter (p : Parameter) :
      Step m (.declareParameter p) { m with parameters := m.parameters.insert p }
  | declareFamily (v : Variable) (sets : List IndexSet) : v.name ∉ m.families.names →
      Step m (.declareFamily v sets)
        { m with families := m.families.insert ⟨v, sets.map IndexSet.elements⟩ }
  | addRow (r : Row) : m.isFree r = true → Step m r.call { m with rows := m.rows ++ [r] }
  | setObjective (name : String) (value : Resolved Member) (sense : Sense) :
      Step m (.setObjective name value sense) { m with goal := some ⟨name, value, sense⟩ }

/-- A call is accepted with its effect, or it is refused without any. -/
theorem step_or_refused (c : Call Member) (m : CompiledModel) :
    (∃ m', target.receive c m = (.ok (), m') ∧ m.Step c m') ∨
      ∃ e, target.receive c m = (.error e, m) := by
  cases c with
  | declareSet s => exact .inl ⟨_, rfl, .declareSet s⟩
  | declareParameter p => exact .inl ⟨_, rfl, .declareParameter p⟩
  | declareFamily v sets =>
    cases hget : m.families.get? v.name with
    | none =>
      have hnew := Registry.get?_eq_none.mp hget
      exact .inl ⟨_, receive_of_ok (receive_family hnew), .declareFamily v sets hnew⟩
    | some f =>
      have hcontains : m.families.contains v.name = true := by
        rw [Registry.contains, hget]
        rfl
      exact .inr ⟨_, receive_of_error (if_pos hcontains)⟩
  | addInstance name inst =>
    cases hfree : m.isFree ⟨name, inst⟩ with
    | true => exact .inl ⟨_, receive_of_ok (receive_call_of_free hfree), .addRow _ hfree⟩
    | false =>
      obtain ⟨message, hmessage⟩ := receive_call_of_taken hfree
      exact .inr ⟨_, receive_of_error hmessage⟩
  | setObjective name value sense => exact .inl ⟨_, rfl, .setObjective name value sense⟩

abbrev ofCalls (cs : List (Call Member)) : CompiledModel := target.after {} cs

/-- What holds of an empty model before any call, and is preserved by what accepted calls do, holds
of a model and the calls that it accepted, after any history. -/
theorem ofCalls_induction {motive : (Call Member → Prop) → CompiledModel → Prop}
    (empty : motive (fun _ => False) {})
    (step : ∀ granted m c m', motive granted m → m.Step c m' →
      motive (fun d => granted d ∨ c = d) m')
    (cs : List (Call Member)) : motive (target.Granted {} cs) (ofCalls cs) := by
  induction cs using List.reverseRecOn with
  | nil =>
    have hnone : target.Granted {} [] = fun _ => False := by
      funext d
      refine eq_false ?_
      rintro ⟨before, _, hsplit, _⟩
      exact List.append_ne_nil_of_right_ne_nil before (List.cons_ne_nil _ _) hsplit.symm
    rw [hnone]
    exact empty
  | append_singleton cs c ih =>
    rw [ofCalls, Target.after_append_singleton]
    rcases step_or_refused c (ofCalls cs) with ⟨m', hreceive, hstep⟩ | ⟨e, hreceive⟩
    · have hgranted : target.Granted {} (cs ++ [c]) = fun d => target.Granted {} cs d ∨ c = d := by
        funext d
        rw [Target.granted_append_singleton, hreceive]
        simp
      rw [hgranted, hreceive]
      exact step _ _ c m' ih hstep
    · have hgranted : target.Granted {} (cs ++ [c]) = target.Granted {} cs := by
        funext d
        rw [Target.granted_append_singleton, hreceive]
        simp
      rw [hgranted, hreceive]
      exact ih

/-- After any calls, a family is the one that was declared under its name by an accepted call. -/
theorem get?_families_ofCalls {cs : List (Call Member)} {name : String} {f : Family} :
    (ofCalls cs).families.get? name = some f ↔
      ∃ sets, target.Granted {} cs (.declareFamily f.declaration sets) ∧
        f.declaration.name = name ∧ f.axes = sets.map IndexSet.elements := by
  refine ofCalls_induction (motive := fun granted m => m.families.get? name = some f ↔
    ∃ sets, granted (.declareFamily f.declaration sets) ∧
      f.declaration.name = name ∧ f.axes = sets.map IndexSet.elements) ?empty ?step cs
  case empty => exact iff_of_false nofun fun ⟨_, h, _⟩ => h
  case step =>
    intro granted m c m' ih hstep
    cases hstep with
    | declareSet s => simpa using ih
    | declareParameter p => simpa using ih
    | addRow r hfree => simpa [Row.call] using ih
    | setObjective n value sense => simpa using ih
    | declareFamily v sets hnew =>
      obtain ⟨declaration, axes⟩ := f
      have hget : (m.families.insert ⟨v, sets.map IndexSet.elements⟩).get? name =
          if v.name = name then some ⟨v, sets.map IndexSet.elements⟩
          else m.families.get? name := Registry.get?_insert _ _ _
      rw [hget]
      by_cases hname : v.name = name
      · -- The name was new, so no family of that name had been declared before.
        have hnone : m.families.get? name = none := Registry.get?_eq_none.mpr (hname ▸ hnew)
        rw [if_pos hname]
        constructor
        · rintro ⟨⟩
          exact ⟨sets, .inr rfl, hname, rfl⟩
        · rintro ⟨sets', hgranted | hcall, hname', haxes⟩
          · rw [ih.mpr ⟨sets', hgranted, hname', haxes⟩] at hnone
            cases hnone
          · cases hcall
            cases haxes
            rfl
      · rw [if_neg hname, ih]
        constructor
        · rintro ⟨sets', hgranted, hsets⟩
          exact ⟨sets', .inl hgranted, hsets⟩
        · rintro ⟨sets', hgranted | hcall, hname', haxes⟩
          · exact ⟨sets', hgranted, hname', haxes⟩
          · cases hcall
            exact absurd hname' hname

theorem unique_families_ofCalls (cs : List (Call Member)) : (ofCalls cs).families.Unique := by
  refine ofCalls_induction (motive := fun _ m => m.families.Unique) ?empty ?step cs
  case empty => exact Registry.unique_empty
  case step =>
    intro granted m c m' ih hstep
    cases hstep with
    | declareFamily v sets hnew => exact ih.insert _
    | _ => exact ih

/-- After any calls, the rows are those that were added by accepted calls, and no key is shared. -/
theorem rows_ofCalls (cs : List (Call Member)) :
    (∀ r, r ∈ (ofCalls cs).rows ↔ target.Granted {} cs r.call) ∧
      ((ofCalls cs).rows.map Row.key).Nodup := by
  refine ofCalls_induction (motive := fun granted m =>
    (∀ r, r ∈ m.rows ↔ granted r.call) ∧ (m.rows.map Row.key).Nodup) ?empty ?step cs
  case empty => exact ⟨fun r => iff_of_false nofun id, List.nodup_nil⟩
  case step =>
    intro granted m c m' ih hstep
    cases hstep with
    | declareSet s => simpa [Row.call] using ih
    | declareParameter p => simpa [Row.call] using ih
    | declareFamily v sets hnew => simpa [Row.call] using ih
    | setObjective n value sense => simpa [Row.call] using ih
    | addRow r hfree =>
      obtain ⟨hrows, hkeys⟩ := ih
      refine ⟨fun q => ?_, ?_⟩
      · rw [List.mem_append, hrows, List.mem_singleton]
        exact or_congr_right (Row.call_injective.eq_iff.symm.trans eq_comm)
      · have hfresh : r.key ∉ m.rows.map Row.key := by simpa [isFree] using hfree
        rw [List.map_append, List.map_singleton, ← List.concat_eq_append]
        exact List.Nodup.concat hfresh hkeys

theorem state_of_error {c : Call Member} {m : CompiledModel} {e : Error}
    (h : (target.receive c m).1 = .error e) : (target.receive c m).2 = m := by
  rcases step_or_refused c m with ⟨m', hreceive, _⟩ | ⟨e', hreceive⟩
  · rw [hreceive] at h
    cases h
  · rw [hreceive]

end CompiledModel

namespace StoredModel

theorem Coherent.after {s : StoredModel} (h : s.Coherent) (cs : List (Call Member)) :
    (target.after s cs).Coherent := by
  induction cs generalizing s with
  | nil => exact h
  | cons c cs ih => exact ih (h.receive c)

abbrev ofCalls (cs : List (Call Member)) : StoredModel := target.after {} cs

theorem ofCalls_eq_stored (cs : List (Call Member)) :
    ofCalls cs = (CompiledModel.ofCalls cs).stored :=
  CompiledModel.stored_refines.after {} cs

def Granted (cs : List (Call Member)) (c : Call Member) : Prop := target.Granted {} cs c

theorem granted_iff {cs : List (Call Member)} {c : Call Member} :
    Granted cs c ↔ CompiledModel.target.Granted {} cs c :=
  CompiledModel.stored_refines.granted (s := ({} : CompiledModel))

/-- What holds after any calls to an empty stored model, in any order and refused ones included.

A family that was declared has a member for each tuple of the product of its sets, in lexicographic
order; a lookup gives the member of that name and tuple exactly for these tuples, and no later call
changes the family. The families are those that were declared.

A lookup of a row gives what was added at that name and tuple, if anything was; no two rows share a
key, where an unquantified row has the key of the empty tuple.

A refused call changes nothing. -/
theorem ofCalls_invariant (cs : List (Call Member)) :
    (∀ v sets, Granted cs (.declareFamily v sets) →
      (ofCalls cs).members v.name =
          (tuples (sets.map IndexSet.elements)).map (Member.mk v.name) ∧
        (∀ index x, (ofCalls cs).member? v.name index = some x ↔
          index ∈ tuples (sets.map IndexSet.elements) ∧ x = ⟨v.name, index⟩) ∧
        ∃ f, f.declaration = v ∧ ∀ later,
          (ofCalls (cs ++ later)).families.get? v.name = some f) ∧
    (∀ f ∈ (ofCalls cs).families.items, ∃ sets,
      Granted cs (.declareFamily f.declaration sets)) ∧
    (∀ name index row, (ofCalls cs).row? name index = some row ↔
      ∃ inst, Granted cs (.addInstance name inst) ∧ inst.index.getD [] = index ∧
        row = ⟨name, inst⟩) ∧
    ((ofCalls cs).rows.map Row.key).Nodup ∧
    ∀ c e, (target.receive c (ofCalls cs)).1 = .error e →
      (target.receive c (ofCalls cs)).2 = ofCalls cs := by
  have hfamily (cs : List (Call Member)) (v : Variable) (sets : List IndexSet)
      (h : Granted cs (.declareFamily v sets)) :
      (CompiledModel.ofCalls cs).families.get? v.name = some ⟨v, sets.map IndexSet.elements⟩ :=
    CompiledModel.get?_families_ofCalls.mpr ⟨sets, granted_iff.mp h, rfl, rfl⟩
  obtain ⟨hrows, hkeys⟩ := CompiledModel.rows_ofCalls cs
  refine ⟨fun v sets h => ⟨?_, fun index x => ?_, ?_⟩, fun f hf => ?_, fun name index row => ?_, ?_,
    fun c e h => ?_⟩
  · rw [ofCalls_eq_stored, CompiledModel.members_stored, CompiledModel.members, hfamily cs v sets h]
    rfl
  · rw [ofCalls_eq_stored, CompiledModel.member?_stored, CompiledModel.member?,
      hfamily cs v sets h, Option.bind_some, Family.member?, ← Family.onAxes_eq_true]
    split
    · rename_i hon
      rw [Option.some.injEq]
      exact ⟨fun he => ⟨hon, he.symm⟩, fun hx => hx.2.symm⟩
    · rename_i hoff
      exact iff_of_false (Option.some_ne_none x).symm fun hx => hoff hx.1
  · refine ⟨Family.stored ⟨v, sets.map IndexSet.elements⟩, rfl, fun later => ?_⟩
    have hlater : Granted (cs ++ later) (.declareFamily v sets) := h.append later
    rw [ofCalls_eq_stored, CompiledModel.get?_families_stored, hfamily _ v sets hlater]
    rfl
  · rw [ofCalls_eq_stored] at hf
    obtain ⟨g, hg, rfl⟩ := List.mem_map.mp hf
    have hget := (CompiledModel.unique_families_ofCalls cs).get?_eq_some hg
    obtain ⟨sets, hgranted, _⟩ := CompiledModel.get?_families_ofCalls.mp hget
    exact ⟨sets, granted_iff.mpr hgranted⟩
  · rw [ofCalls_eq_stored, CompiledModel.row?_stored, CompiledModel.row?_eq_some hkeys, hrows]
    simp only [granted_iff]
    constructor
    · rintro ⟨hgranted, hkey⟩
      obtain ⟨hname, hindex⟩ := Prod.mk.inj hkey
      exact ⟨row.inst, hname ▸ hgranted, hindex, hname ▸ rfl⟩
    · rintro ⟨inst, hgranted, hindex, rfl⟩
      exact ⟨hgranted, congrArg (Prod.mk name) hindex⟩
  · rw [ofCalls_eq_stored]
    exact hkeys
  · rw [ofCalls_eq_stored] at h ⊢
    change (receive c _).1 = _ at h
    change (receive c _).2 = _
    rw [CompiledModel.receive_stored] at h ⊢
    rw [CompiledModel.state_of_error h]

def twice : IndexSet := ⟨"I", [.int 1, .int 1]⟩

def bound (index : Option Tuple) : Instance Member :=
  ⟨index, ⟨.host (.int 1), .le, .host (.int 4)⟩⟩

/-- Calls of which the second and the last one are refused. -/
def meddled : List (Call Member) :=
  [.declareFamily { name := "x", indices := ["I"] } [twice], .declareFamily { name := "x" } [],
    .addInstance "cap" (bound none), .addInstance "cap" (bound (some []))]

theorem ofCalls_invariant_meddled :
    Granted meddled (.declareFamily { name := "x", indices := ["I"] } [twice]) ∧
      (ofCalls meddled).members "x" = [⟨"x", [.int 1]⟩, ⟨"x", [.int 1]⟩] ∧
      (ofCalls meddled).member? "x" [.int 1] = some ⟨"x", [.int 1]⟩ ∧
      Granted meddled (.addInstance "cap" (bound none)) ∧
      (ofCalls meddled).row? "cap" [] = some ⟨"cap", bound none⟩ ∧
      (receive (.addInstance "cap" (bound (some []))) (ofCalls meddled)).1 =
        .error (.target "constraint `cap` already has an instance at []") ∧
      (receive (.addInstance "cap" (bound (some []))) (ofCalls meddled)).2 = ofCalls meddled := by
  obtain ⟨hfamilies, _, hrows, _, hrefused⟩ := ofCalls_invariant meddled
  have hdeclared : Granted meddled (.declareFamily { name := "x", indices := ["I"] } [twice]) :=
    ⟨[], _, rfl, rfl⟩
  have hadded : Granted meddled (.addInstance "cap" (bound none)) :=
    ⟨[.declareFamily { name := "x", indices := ["I"] } [twice], .declareFamily { name := "x" } []],
      _, rfl, rfl⟩
  obtain ⟨hmembers, hmember, _⟩ := hfamilies _ _ hdeclared
  refine ⟨hdeclared, hmembers, ?_, hadded, ?_, rfl, ?_⟩
  · exact (hmember [.int 1] _).mpr ⟨by decide, rfl⟩
  · exact (hrows "cap" [] _).mpr ⟨bound none, hadded, rfl, rfl⟩
  · exact hrefused (.addInstance "cap" (bound (some []))) _ rfl

end StoredModel

end Milp
