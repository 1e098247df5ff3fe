import Milp.Document.Compile
import Milp.Proofs.Compilation.Fresh

/-! The calls that a compilation makes. Whatever the target answers and whichever handles it gives
out, the calls are a first part of one canonical sequence. A refused call is the last one, and
nothing but declarations is made before everything is evaluated. -/
namespace Milp.Model

variable {σ V : Type}

def FamilyCall (m : Model) (v : Variable) (c : Call V) : Prop :=
  ∃ sets, List.Forall₂ (fun name s => m.sets.get? name = some s) v.indices sets ∧
    c = .declareFamily v sets

def declaring (m : Model) (families : List (Call V)) : List (Call V) :=
  m.sets.items.map .declareSet ++ m.parameters.items.map .declareParameter ++ families

structure Evaluates (m : Model) (st : Setting V) (o : Objective) (planned : List (Planned V))
    (value : Resolved V) : Prop where
  objective : m.objective = some o
  constraints : List.Forall₂ (fun c q => q.Expands st c) m.constraints.items planned
  value : o.expr.eval st Scope.root = .ok value

/-- The canonical calls to a target that is in some state, as far as they go, and whether they go
to the end. They are the declarations, then one call per instance in the order of constraints and of
enumeration, then one for the objective. Instances and objective depend on the handles that the
target gives out after the declarations. -/
inductive Canonical (m : Model) (t : Target σ V) (limits : Limits) (s : σ) :
    List (Call V) → Bool → Prop
  /-- A variable whose sets are not all known has no declaring call. -/
  | ungrounded {before after : List Variable} {v : Variable} {families : List (Call V)} :
      m.vars.items = before ++ v :: after → ¬ m.Grounded v →
      List.Forall₂ m.FamilyCall before families →
      Canonical m t limits s (m.declaring families) false
  /-- There is nothing to emit where something cannot be evaluated. -/
  | unevaluated {families : List (Call V)} :
      List.Forall₂ m.FamilyCall m.vars.items families →
      (∀ declared, t.Accepts s (m.declaring families) declared →
        ¬ ∃ o planned value, m.Evaluates (m.setting t limits declared) o planned value) →
      Canonical m t limits s (m.declaring families) false
  | complete {families : List (Call V)} {declared : σ} {o : Objective}
      {planned : List (Planned V)} {value : Resolved V} :
      List.Forall₂ m.FamilyCall m.vars.items families →
      t.Accepts s (m.declaring families) declared →
      m.Evaluates (m.setting t limits declared) o planned value →
      Canonical m t limits s
        (m.declaring families ++
          ((planned.flatMap fun q => q.expansion.instances.map (.addInstance q.name)) ++
            [.setObjective o.name value o.sense]))
        true

/-- Whether a model has no objective or, in checked mode, does not pass its check. -/
def Unready (m : Model) (mode : CheckMode) : Prop :=
  m.objective = none ∨ (mode = .checked ∧ ∃ e, m.check = .error e)

structure Protocol (m : Model) (t : Target σ V) (config : Config) (s : σ) (made : List (Call V))
    (result : Except Error Report) (final : σ) : Prop where
  /-- Success means that the whole canonical sequence was made and accepted. A ready model stops
  short of the sequence at a refusal only. -/
  canonical : ∃ calls whole, m.Canonical t config.limits s calls whole ∧ made <+: calls ∧
    ((∃ r, result = .ok r) ↔ whole = true ∧ made = calls ∧ t.Accepts s calls final) ∧
    (made = calls ∨ m.Unready config.mode ∨ ∃ before c s₁ e s₂, made = before ++ [c] ∧
      t.Accepts s before s₁ ∧ t.receive c s₁ = (.error e, s₂))
  /-- The failure of a refused call is the result, and no call follows it. -/
  refusal : ∀ before c after s₁ e s₂, made = before ++ c :: after → t.Accepts s before s₁ →
    t.receive c s₁ = (.error e, s₂) → after = [] ∧ result = .error e ∧ final = s₂
  /-- Before a call that is no declaration, all declarations were accepted and everything was
  evaluated. -/
  evaluated : (∃ c ∈ made, c.isDeclaration = false) →
    ∃ families declared, List.Forall₂ m.FamilyCall m.vars.items families ∧
      m.declaring families <+: made ∧ t.Accepts s (m.declaring families) declared ∧
      ∃ o planned value, m.Evaluates (m.setting t config.limits declared) o planned value
  unready : m.Unready config.mode → made = []

def due (m : Model) (t : Target σ V) (config : Config) (s : σ) : List (Call V) :=
  match m.ready config.mode, m.plan t config s with
  | .error _, _ => []
  | .ok _, .error _ => m.declarations.1
  | .ok _, .ok p => m.declarations.1 ++ emissions p.constraints p.objective p.value

section

variable {m : Model} {t : Target σ V} {config : Config} {s : σ}

theorem unready_iff {mode : CheckMode} : m.Unready mode ↔ ∃ e, m.ready mode = .error e := by
  rw [Unready, ready]
  cases m.objective with
  | none => simp
  | some o =>
    cases mode with
    | fast => simp
    | checked => cases m.check <;> simp [Except.map]

theorem due_of_unready (h : m.Unready config.mode) : m.due t config s = [] := by
  obtain ⟨e, he⟩ := unready_iff.mp h
  rw [due, he]

theorem due_of_unplanned {o : Objective} {e : Error} (hready : m.ready config.mode = .ok o)
    (h : m.plan t config s = .error e) : m.due t config s = m.declarations.1 := by
  rw [due, hready, h]

theorem due_of_plan {p : Plan σ V} (h : m.plan t config s = .ok p) :
    m.due t config s = m.declarations.1 ++ emissions p.constraints p.objective p.value := by
  rw [due, (plan_eq_ok.mp h).1, h]

theorem plan_of_refusal {o : Objective} {e : Error} (hready : m.ready config.mode = .ok o)
    (h : (m.declare t s).refusal = some e) : m.plan t config s = .error e := by
  have hfailure : m.declareFailure t s = some e := by rw [declareFailure, h, Option.some_or]
  rw [plan, hready, ok_bind]
  simp only [hfailure]

end

/-- A compilation delivers the calls that are due. It fails as the first refusal does, and where
there is none, its result is that of the plan. -/
theorem compile_due (m : Model) (t : Target σ V) (config : Config) (s : σ) :
    (m.compile t config s).state = (t.deliver (m.due t config s) s).state ∧
      (m.compile t config s).result =
        match (t.deliver (m.due t config s) s).refusal with
        | some e => .error e
        | none => (m.plan t config s).map fun p => m.report p.constraints p.value := by
  cases hready : m.ready config.mode with
  | error e =>
    have hplan : m.plan t config s = .error e := by rw [plan, hready, error_bind]
    rw [compile_of_unready hready, due_of_unready (unready_iff.mpr ⟨e, hready⟩), hplan]
    exact ⟨rfl, rfl⟩
  | ok o =>
    cases hplan : m.plan t config s with
    | error e =>
      obtain ⟨hresult, hstate⟩ := compile_of_unplanned hready hplan
      rw [due_of_unplanned hready hplan, hresult, hstate]
      refine ⟨rfl, ?_⟩
      cases hrefusal : (t.deliver m.declarations.1 s).refusal with
      | none => rfl
      | some e' =>
        rw [plan_of_refusal hready hrefusal] at hplan
        cases hplan
        rfl
    | ok p =>
      obtain ⟨hstate, hresult⟩ := compile_of_plan hplan
      obtain ⟨_, hfailure, hdeclared, _⟩ := plan_eq_ok.mp hplan
      have hrefusal : (t.deliver m.declarations.1 s).refusal = none :=
        (Option.or_eq_none_iff.mp hfailure).1
      rw [due_of_plan hplan, hstate, hresult, Target.deliver_append, hrefusal, hdeclared]
      exact ⟨rfl, rfl⟩

/-- Recording changes nothing about a plan but the state that it starts from. -/
theorem plan_recording (m : Model) (t : Target σ V) (config : Config) (s : σ)
    (log : List (Call V)) :
    m.plan t.recording config (s, log) = (m.plan t config s).map fun p =>
      ⟨p.objective, (p.declared, (m.declare t s).made.reverse ++ log), p.constraints, p.value⟩ := by
  have hdeclare := t.deliver_recording m.declarations.1 s log
  have hfailure : m.declareFailure t.recording (s, log) = m.declareFailure t s := by
    rw [declareFailure, declare, hdeclare]
    rfl
  have hsetting : m.setting t.recording config.limits (m.declare t.recording (s, log)).state =
      m.setting t config.limits (m.declare t s).state := by
    rw [declare, hdeclare]
    rfl
  rw [plan, plan]
  cases m.ready config.mode with
  | error e => rfl
  | ok o =>
    simp only [ok_bind, hfailure, hsetting]
    cases m.declareFailure t s with
    | some e => rfl
    | none =>
      simp only [declare, hdeclare]
      cases m.constraints.items.mapM fun c =>
          (c.expand (m.setting t config.limits (t.deliver m.declarations.1 s).state)).map
            (Planned.mk c.name) with
      | error e => rfl
      | ok planned =>
        simp only [ok_bind]
        cases o.expr.eval (m.setting t config.limits (t.deliver m.declarations.1 s).state)
            Scope.root <;> rfl

theorem due_recording (m : Model) (t : Target σ V) (config : Config) (s : σ)
    (log : List (Call V)) : m.due t.recording config (s, log) = m.due t config s := by
  rw [due, due, plan_recording]
  cases m.ready config.mode with
  | error e => rfl
  | ok o => cases m.plan t config s <;> rfl

/-- A recording target sees the calls that are delivered, and nothing else changes. -/
theorem compile_recording (m : Model) (t : Target σ V) (config : Config) (s : σ) :
    (m.compile t.recording config (s, [])).result = (m.compile t config s).result ∧
      (m.compile t.recording config (s, [])).state =
        ((m.compile t config s).state, (t.deliver (m.due t config s) s).made.reverse) := by
  obtain ⟨hstate, hresult⟩ := m.compile_due t config s
  obtain ⟨hstate', hresult'⟩ := m.compile_due t.recording config (s, [])
  rw [due_recording, t.deliver_recording] at hstate' hresult'
  rw [hstate', hresult', hstate, hresult, plan_recording, List.append_nil]
  refine ⟨?_, rfl⟩
  cases (t.deliver (m.due t config s) s).refusal with
  | some e => rfl
  | none => cases m.plan t config s <;> rfl

variable {m : Model} {t : Target σ V} {config : Config} {s : σ}

theorem familyCall_eq_ok {v : Variable} {c : Call V} :
    m.familyCall v = .ok c ↔ m.FamilyCall v c := by
  rw [familyCall, map_eq_ok, FamilyCall]
  simp only [mapM_eq_ok, findSet_eq_ok]
  exact exists_congr fun sets => and_congr_right fun _ => eq_comm

/-- Where the index sets of all variables exist, every variable is declared over its sets. -/
theorem declarations_of_grounded (h : (m.declarations (V := V)).2 = none) :
    ∃ families : List (Call V), List.Forall₂ m.FamilyCall m.vars.items families ∧
      m.declarations.1 = m.declaring families := by
  obtain ⟨done, rest, hvars, hdone, hrest⟩ := collect_split (m.familyCall (V := V)) m.vars.items
  rw [hrest h, List.append_nil] at hvars
  rw [hvars]
  exact ⟨_, hdone.imp fun _ _ => familyCall_eq_ok.mp, rfl⟩

/-- A plan rests on accepted declarations and on an evaluation in the state after them. -/
theorem evaluates_of_plan {p : Plan σ V} (h : m.plan t config s = .ok p) :
    (m.declarations (V := V)).2 = none ∧ t.Accepts s m.declarations.1 p.declared ∧
      m.Evaluates (m.setting t config.limits p.declared) p.objective p.constraints p.value := by
  obtain ⟨hready, hfailure, hdeclared, hplanned, hvalue⟩ := plan_eq_ok.mp h
  obtain ⟨hrefusal, hunknown⟩ := Option.or_eq_none_iff.mp hfailure
  refine ⟨hunknown, ?_, (ready_eq_ok.mp hready).1, hplanned, hvalue⟩
  rw [hdeclared]
  exact (Target.accepts_of_deliver hrefusal).2

/-- A ready model has a plan when declarations and evaluation go through. -/
theorem plan_of_evaluates {o o' : Objective} {declared : σ} {planned : List (Planned V)}
    {value : Resolved V} (hready : m.ready config.mode = .ok o')
    (hunknown : (m.declarations (V := V)).2 = none)
    (haccepts : t.Accepts s m.declarations.1 declared)
    (h : m.Evaluates (m.setting t config.limits declared) o planned value) :
    m.plan t config s = .ok ⟨o, declared, planned, value⟩ := by
  have hdeliver := Target.deliver_of_accepts haccepts
  have hobjective : o' = o := by
    have hsome := (ready_eq_ok.mp hready).1
    rw [h.objective, Option.some.injEq] at hsome
    exact hsome.symm
  refine plan_eq_ok.mpr ⟨hobjective ▸ hready, ?_, ?_, h.constraints, h.value⟩
  · rw [declareFailure, declare, hdeliver, hunknown]
    rfl
  · rw [declare, hdeliver]

theorem due_of_no_plan (h : ∀ p, m.plan t config s ≠ .ok p) :
    m.due t config s = m.declarations.1 ∨ m.Unready config.mode := by
  cases hready : m.ready config.mode with
  | error e => exact .inr (unready_iff.mpr ⟨e, hready⟩)
  | ok o =>
    cases hplan : m.plan t config s with
    | error e => exact .inl (due_of_unplanned hready hplan)
    | ok p => exact absurd hplan (h p)

/-- The calls that are due to a ready model's target are a canonical sequence, and go to its end
exactly when there is a plan. -/
theorem exists_canonical (m : Model) (t : Target σ V) (config : Config) (s : σ) :
    ∃ calls whole, m.Canonical t config.limits s calls whole ∧
      (m.due t config s = calls ∨ m.Unready config.mode) ∧
      ((∃ p, m.plan t config s = .ok p) ↔ whole = true ∧ m.due t config s = calls) := by
  have hpart (hnone : ∀ p, m.plan t config s ≠ .ok p)
      (h : m.Canonical t config.limits s m.declarations.1 false) :
      ∃ calls whole, m.Canonical t config.limits s calls whole ∧
        (m.due t config s = calls ∨ m.Unready config.mode) ∧
        ((∃ p, m.plan t config s = .ok p) ↔ whole = true ∧ m.due t config s = calls) := by
    refine ⟨m.declarations.1, false, h, ?_, ?_⟩
    · exact due_of_no_plan hnone
    · exact iff_of_false (fun ⟨p, hp⟩ => hnone p hp) (fun hw => nomatch hw.1)
  cases hunknown : (m.declarations (V := V)).2 with
  | some e =>
    obtain ⟨before, v, after, hvars, hv, hfamilies⟩ := collect_failure hunknown
    refine hpart (fun p hp => ?_) (.ungrounded hvars ?_ (hfamilies.imp fun _ _ => ?_))
    · rw [(evaluates_of_plan hp).1] at hunknown
      cases hunknown
    · intro hgrounded
      obtain ⟨c, hc⟩ := (familyCall_isOk (V := V)).mpr hgrounded
      rw [hv] at hc
      cases hc
    · exact familyCall_eq_ok.mp
  | none =>
    obtain ⟨families, hfamilies, hdeclarations⟩ := declarations_of_grounded hunknown
    rw [hdeclarations] at hpart
    by_cases heval : ∃ declared o planned value, t.Accepts s (m.declaring families) declared ∧
        m.Evaluates (m.setting t config.limits declared) o planned value
    · obtain ⟨declared, o, planned, value, haccepts, heval⟩ := heval
      refine ⟨_, true, .complete hfamilies haccepts heval, ?_⟩
      cases hready : m.ready config.mode with
      | error e =>
        have hunready : m.Unready config.mode := unready_iff.mpr ⟨e, hready⟩
        rw [due_of_unready hunready]
        refine ⟨.inr hunready, iff_of_false ?_ ?_⟩
        · rintro ⟨p, hp⟩
          rw [(plan_eq_ok.mp hp).1] at hready
          cases hready
        · simp
      | ok o' =>
        have hplan := plan_of_evaluates hready hunknown (hdeclarations ▸ haccepts) heval
        rw [due_of_plan hplan, hdeclarations]
        exact ⟨.inl rfl, iff_of_true ⟨_, hplan⟩ ⟨rfl, rfl⟩⟩
    · refine hpart (fun p hp => ?_) (.unevaluated hfamilies fun declared haccepts => ?_)
      · obtain ⟨_, haccepts, hevaluates⟩ := evaluates_of_plan hp
        exact heval ⟨_, _, _, _, hdeclarations ▸ haccepts, hevaluates⟩
      · rintro ⟨o, planned, value, hevaluates⟩
        exact heval ⟨declared, o, planned, value, haccepts, hevaluates⟩

/-- The delivery of the calls that are due follows the protocol. -/
private theorem protocol_of_due (m : Model) (t : Target σ V) (config : Config) (s : σ) :
    m.Protocol t config s (t.deliver (m.due t config s) s).made (m.compile t config s).result
      (m.compile t config s).state := by
  obtain ⟨hstate, hresult⟩ := m.compile_due t config s
  have hmade := t.made_prefix (m.due t config s) s
  constructor
  case canonical =>
    obtain ⟨calls, whole, hcanonical, hdue, hplan⟩ := m.exists_canonical t config s
    have hprefix : (t.deliver (m.due t config s) s).made <+: calls := by
      rcases hdue with hdue | hunready
      · exact hdue ▸ hmade
      · rw [due_of_unready hunready, Target.deliver]
        exact List.nil_prefix
    refine ⟨calls, whole, hcanonical, hprefix, ?_, ?_⟩
    · constructor
      · rintro ⟨r, hr⟩
        cases hrefusal : (t.deliver (m.due t config s) s).refusal with
        | some e =>
          rw [hresult, hrefusal] at hr
          cases hr
        | none =>
          rw [hresult, hrefusal] at hr
          obtain ⟨p, hp, _⟩ := map_eq_ok.mp hr
          obtain ⟨hwhole, rfl⟩ := hplan.mp ⟨p, hp⟩
          obtain ⟨hall, haccepts⟩ := Target.accepts_of_deliver hrefusal
          exact ⟨hwhole, hall, hstate ▸ haccepts⟩
      · rintro ⟨hwhole, hall, haccepts⟩
        have hsame : m.due t config s = calls := by
          rcases hdue with hdue | hunready
          · exact hdue
          · rwa [due_of_unready hunready, Target.deliver, ← due_of_unready hunready] at hall
        obtain ⟨p, hp⟩ := hplan.mpr ⟨hwhole, hsame⟩
        rw [hresult, hsame, Target.deliver_of_accepts haccepts, hp]
        exact ⟨_, rfl⟩
    · rcases hdue with rfl | hunready
      · cases hrefusal : (t.deliver (m.due t config s) s).refusal with
        | none => exact .inl (Target.accepts_of_deliver hrefusal).1
        | some e =>
          obtain ⟨before, c, s₁, hlast, haccepts, hc⟩ := Target.refused_of_deliver hrefusal
          exact .inr (.inr ⟨before, c, s₁, e, _, hlast, haccepts, hc⟩)
      · exact .inr (.inl hunready)
  case refusal =>
    intro before c after s₁ e s₂ hsplit hbefore hc
    obtain ⟨rest, hrest⟩ := hmade
    rw [hsplit, List.append_assoc, List.cons_append] at hrest
    have hdeliver := Target.deliver_of_refused hbefore hc (after ++ rest)
    rw [hrest] at hdeliver
    rw [hdeliver] at hsplit hstate hresult
    refine ⟨?_, hresult, hstate⟩
    exact (List.cons.inj (List.append_cancel_left hsplit)).2.symm
  case evaluated =>
    rintro ⟨c, hc, hemits⟩
    by_cases hplan : ∃ p, m.plan t config s = .ok p
    · obtain ⟨p, hp⟩ := hplan
      obtain ⟨hunknown, haccepts, hevaluates⟩ := evaluates_of_plan hp
      obtain ⟨families, hfamilies, hdeclarations⟩ := declarations_of_grounded hunknown
      rw [hdeclarations] at haccepts
      refine ⟨families, p.declared, hfamilies, ?_, haccepts, _, _, _, hevaluates⟩
      rw [due_of_plan hp, hdeclarations, Target.deliver_append, Target.deliver_of_accepts haccepts]
      exact List.prefix_append _ _
    · have hmem : c ∈ m.due t config s := hmade.subset hc
      rcases due_of_no_plan fun p hp => hplan ⟨p, hp⟩ with hdue | hunready
      · rw [hdue] at hmem
        rw [m.declarations_isDeclaration c hmem] at hemits
        cases hemits
      · rw [due_of_unready hunready] at hmem
        cases hmem
  case unready =>
    intro hunready
    rw [due_of_unready hunready, Target.deliver]

/-- The calls of a compilation into any target, as a target that records them receives them, follow
the protocol; recording changes neither result nor state. A document that cannot be read, or whose
model is refused, leads to no call. -/
theorem compile_follows_protocol (m : Model) (t : Target σ V) (config : Config) (s : σ) :
    (m.compile t.recording config (s, [])).result = (m.compile t config s).result ∧
    (∃ made, (m.compile t.recording config (s, [])).state =
        ((m.compile t config s).state, made.reverse) ∧
      m.Protocol t config s made (m.compile t config s).result (m.compile t config s).state) ∧
    ∀ text, ((∃ fault, Document.ofText Document.readModel text = .error fault) ∨
        ∃ d e, Document.ofText Document.readModel text = .ok d ∧ ofData d = .error e) →
      (Document.compileText text t.recording config (s, [])).state = (s, []) := by
  obtain ⟨hresult, hstate⟩ := m.compile_recording t config s
  refine ⟨hresult, ⟨_, hstate, m.protocol_of_due t config s⟩, fun text h => ?_⟩
  rw [Document.compileText, Document.modelOfText]
  rcases h with ⟨fault, hfault⟩ | ⟨d, e, hd, he⟩
  · rw [hfault]
  · rw [hd]
    simp only [he, Except.mapError]

end Milp.Model
