import Milp.CompiledModel
import Milp.Proofs.Registry

/-! Deliveries of calls. A delivery stops at the first refusal, so a list of calls that is not
refused can be followed by another one. On compiled models, declarations leave rows and goal alone,
and rows are accepted up to the first whose key is taken. -/
namespace Milp

variable {σ V : Type}

namespace Target

/-- What a delivery leads to when further calls follow it. -/
theorem deliver_append (t : Target σ V) (xs ys : List (Call V)) (s : σ) :
    t.deliver (xs ++ ys) s =
      match (t.deliver xs s).refusal with
      | some _ => t.deliver xs s
      | none =>
        { t.deliver ys (t.deliver xs s).state with
          made := (t.deliver xs s).made ++ (t.deliver ys (t.deliver xs s).state).made } := by
  induction xs generalizing s with
  | nil => rfl
  | cons x xs ih =>
    rw [List.cons_append, deliver, deliver]
    cases hx : t.receive x s with
    | mk answer s' =>
      cases answer with
      | error e => rfl
      | ok _ =>
        simp only [ih s']
        cases h : (t.deliver xs s').refusal <;> simp [h]

/-- What every call keeps is kept by a delivery. -/
theorem deliver_keeps {t : Target σ V} {p : σ → Prop} {cs : List (Call V)}
    (h : ∀ c ∈ cs, ∀ s, p s → p (t.receive c s).2) {s : σ} (hs : p s) :
    p (t.deliver cs s).state := by
  induction cs generalizing s with
  | nil => exact hs
  | cons c cs ih =>
    have hc := h c List.mem_cons_self s hs
    rw [deliver]
    cases hr : t.receive c s with
    | mk answer s' =>
      rw [hr] at hc
      cases answer with
      | error e => exact hc
      | ok _ => exact ih (fun d hd => h d (List.mem_cons_of_mem _ hd)) hc

inductive Accepts (t : Target σ V) : σ → List (Call V) → σ → Prop
  | nil (s : σ) : Accepts t s [] s
  | cons {c : Call V} {cs : List (Call V)} {s s₁ s₂ : σ} :
      t.receive c s = (.ok (), s₁) → Accepts t s₁ cs s₂ → Accepts t s (c :: cs) s₂

theorem deliver_of_accepts {t : Target σ V} {cs : List (Call V)} {s s' : σ}
    (h : t.Accepts s cs s') : t.deliver cs s = ⟨cs, s', none⟩ := by
  induction h with
  | nil s => rfl
  | cons hc _ ih => simp only [deliver, hc, ih]

/-- A delivery that is not refused made all its calls. -/
theorem accepts_of_deliver {t : Target σ V} {cs : List (Call V)} {s : σ}
    (h : (t.deliver cs s).refusal = none) :
    (t.deliver cs s).made = cs ∧ t.Accepts s cs (t.deliver cs s).state := by
  induction cs generalizing s with
  | nil => exact ⟨rfl, .nil s⟩
  | cons c cs ih =>
    rw [deliver] at h ⊢
    cases hc : t.receive c s with
    | mk answer s₁ =>
      rw [hc] at h
      cases answer with
      | error e => cases h
      | ok _ =>
        obtain ⟨hmade, haccepts⟩ := ih h
        exact ⟨congrArg (c :: ·) hmade, .cons hc haccepts⟩

/-- A delivery that is refused made some calls that were accepted and the refused one. -/
theorem refused_of_deliver {t : Target σ V} {cs : List (Call V)} {s : σ} {e : Error}
    (h : (t.deliver cs s).refusal = some e) :
    ∃ before c s₁, (t.deliver cs s).made = before ++ [c] ∧ t.Accepts s before s₁ ∧
      t.receive c s₁ = (.error e, (t.deliver cs s).state) := by
  induction cs generalizing s with
  | nil => cases h
  | cons c cs ih =>
    rw [deliver] at h ⊢
    cases hc : t.receive c s with
    | mk answer s₁ =>
      rw [hc] at h
      cases answer with
      | error e' =>
        cases h
        exact ⟨[], c, s, rfl, .nil s, hc⟩
      | ok _ =>
        obtain ⟨before, c', s₂, hmade, haccepts, hrefused⟩ := ih h
        exact ⟨c :: before, c', s₂, congrArg (c :: ·) hmade, .cons hc haccepts, hrefused⟩

theorem made_prefix (t : Target σ V) (cs : List (Call V)) (s : σ) :
    (t.deliver cs s).made <+: cs := by
  induction cs generalizing s with
  | nil => exact List.prefix_rfl
  | cons c cs ih =>
    rw [deliver]
    cases t.receive c s with
    | mk answer s₁ =>
      cases answer with
      | error e => exact (List.prefix_cons_inj c).mpr (List.nil_prefix)
      | ok _ => exact (List.prefix_cons_inj c).mpr (ih s₁)

/-- A refused call is the last one that a delivery makes, and its failure is reported. -/
theorem deliver_of_refused {t : Target σ V} {before : List (Call V)} {c : Call V}
    {s s₁ s₂ : σ} {e : Error} (hbefore : t.Accepts s before s₁)
    (hc : t.receive c s₁ = (.error e, s₂)) (after : List (Call V)) :
    t.deliver (before ++ c :: after) s = ⟨before ++ [c], s₂, some e⟩ := by
  rw [deliver_append, deliver_of_accepts hbefore, deliver, hc]

theorem receive_recording (t : Target σ V) (c : Call V) (s : σ) (log : List (Call V)) :
    t.recording.receive c (s, log) = ((t.receive c s).1, (t.receive c s).2, c :: log) := rfl

/-- Recording changes neither what is delivered nor the answers, and keeps what was made. -/
theorem deliver_recording (t : Target σ V) (cs : List (Call V)) (s : σ) (log : List (Call V)) :
    t.recording.deliver cs (s, log) =
      ⟨(t.deliver cs s).made,
        ((t.deliver cs s).state, (t.deliver cs s).made.reverse ++ log),
        (t.deliver cs s).refusal⟩ := by
  induction cs generalizing s log with
  | nil => rfl
  | cons c cs ih =>
    rw [deliver, deliver, receive_recording]
    cases t.receive c s with
    | mk answer s₁ =>
      cases answer with
      | error e => rfl
      | ok _ => simp [ih s₁ (c :: log)]

end Target

def Call.isDeclaration : Call V → Bool
  | .declareSet _ => true
  | .declareParameter _ => true
  | .declareFamily _ _ => true
  | .addInstance _ _ => false
  | .setObjective _ _ _ => false

def Row.call (r : Row) : Call Member := .addInstance r.constraint r.inst

namespace CompiledModel

theorem receive_of_error {m : CompiledModel} {c : Call Member} {e : Error}
    (h : m.receive c = .error e) : target.receive c m = (.error e, m) := by
  simp [target, h]

/-- Refusals of a compiled model are reported by it as a target. -/
theorem exists_message {m : CompiledModel} {c : Call Member} {e : Error}
    (h : m.receive c = .error e) : ∃ message, e = .target message := by
  cases c with
  | declareSet s => cases h
  | declareParameter p => cases h
  | declareFamily v sets =>
    rw [receive] at h
    split at h
    · cases h
      exact ⟨_, rfl⟩
    · cases h
  | addInstance name inst =>
    rw [receive] at h
    split at h
    · cases h
      exact ⟨_, rfl⟩
    · cases h
  | setObjective name value sense => cases h

theorem receive_of_ok {m m' : CompiledModel} {c : Call Member} (h : m.receive c = .ok m') :
    target.receive c m = (.ok (), m') := by
  simp [target, h]

theorem deliver_cons_of_ok {m m' : CompiledModel} {c : Call Member} (h : m.receive c = .ok m')
    (cs : List (Call Member)) :
    target.deliver (c :: cs) m =
      { target.deliver cs m' with made := c :: (target.deliver cs m').made } := by
  rw [Target.deliver, receive_of_ok h]

private theorem rows_receive_declaration {c : Call Member} (hc : c.isDeclaration = true)
    (m : CompiledModel) :
    (target.receive c m).2.rows = m.rows ∧ (target.receive c m).2.goal = m.goal := by
  cases c with
  | declareSet s => exact ⟨rfl, rfl⟩
  | declareParameter p => exact ⟨rfl, rfl⟩
  | declareFamily v sets =>
    cases h : m.families.contains v.name with
    | true =>
      rw [receive_of_error (by rw [receive, if_pos h])]
      exact ⟨rfl, rfl⟩
    | false =>
      rw [receive_of_ok (by rw [receive, if_neg (by simp [h])])]
      exact ⟨rfl, rfl⟩
  | addInstance name inst => cases hc
  | setObjective name value sense => cases hc

/-- Declarations change neither the rows nor the goal, whether they are accepted or refused. -/
theorem rows_deliver_declarations {cs : List (Call Member)}
    (hcs : ∀ c ∈ cs, c.isDeclaration = true) (m : CompiledModel) :
    (target.deliver cs m).state.rows = m.rows ∧ (target.deliver cs m).state.goal = m.goal := by
  have hp : m.rows = m.rows ∧ m.goal = m.goal := ⟨rfl, rfl⟩
  refine Target.deliver_keeps (p := fun s : CompiledModel => s.rows = m.rows ∧ s.goal = m.goal)
    ?_ hp
  intro c hc s hs
  obtain ⟨hrows, hgoal⟩ := rows_receive_declaration (hcs c hc) s
  exact ⟨hrows.trans hs.1, hgoal.trans hs.2⟩

def isFree (m : CompiledModel) (r : Row) : Bool := r.key ∉ m.rows.map Row.key

theorem row?_key_isSome (m : CompiledModel) (r : Row) :
    (m.row? r.constraint r.key.2).isSome = !m.isFree r := by
  have hkey : (r.constraint, r.key.2) = r.key := rfl
  rw [row?, hkey, Bool.eq_iff_iff, List.find?_isSome]
  simp [isFree]

theorem receive_call_of_free {m : CompiledModel} {r : Row} (h : m.isFree r = true) :
    m.receive r.call = .ok { m with rows := m.rows ++ [r] } := by
  have hnone : (m.row? r.constraint r.key.2).isSome = false := by rw [row?_key_isSome, h]; rfl
  rw [Row.call, receive]
  exact if_neg (by simpa using hnone)

theorem receive_call_of_taken {m : CompiledModel} {r : Row} (h : m.isFree r = false) :
    ∃ message, m.receive r.call = .error (.target message) := by
  have hsome : (m.row? r.constraint r.key.2).isSome = true := by rw [row?_key_isSome, h]; rfl
  rw [Row.call, receive]
  exact ⟨_, if_pos hsome⟩

private theorem isFree_append {m : CompiledModel} {r s : Row} (h : r.key ≠ s.key) :
    isFree { m with rows := m.rows ++ [s] } r = m.isFree r := by
  simp [isFree, h]

private theorem takeWhile_congr {α : Type} {p q : α → Bool} {as : List α}
    (h : ∀ a ∈ as, p a = q a) : as.takeWhile p = as.takeWhile q := by
  induction as with
  | nil => rfl
  | cons a as ih =>
    rw [List.takeWhile_cons, List.takeWhile_cons, h a List.mem_cons_self,
      ih fun b hb => h b (List.mem_cons_of_mem _ hb)]

/-- Rows of distinct keys are added up to the first one whose key is taken, which is refused. -/
theorem deliver_rows {rows : List Row} (hdistinct : (rows.map Row.key).Nodup)
    (m : CompiledModel) :
    (target.deliver (rows.map Row.call) m).state =
        { m with rows := m.rows ++ rows.takeWhile m.isFree } ∧
      ((target.deliver (rows.map Row.call) m).refusal = none ↔ ∀ r ∈ rows, m.isFree r = true) := by
  induction rows generalizing m with
  | nil => simp [Target.deliver]
  | cons r rows ih =>
    rw [List.map_cons, List.nodup_cons] at hdistinct
    cases hfree : m.isFree r with
    | false =>
      obtain ⟨message, hmessage⟩ := receive_call_of_taken hfree
      rw [List.map_cons, Target.deliver, receive_of_error hmessage]
      simp [hfree]
    | true =>
      -- The added row has a key of its own, so it takes none of those that follow.
      have hsame : ∀ s ∈ rows, isFree { m with rows := m.rows ++ [r] } s = m.isFree s := by
        intro s hs
        refine isFree_append fun he => hdistinct.1 ?_
        exact he ▸ List.mem_map_of_mem hs
      obtain ⟨hstate, hrefusal⟩ := ih hdistinct.2 { m with rows := m.rows ++ [r] }
      rw [List.map_cons, deliver_cons_of_ok (receive_call_of_free hfree)]
      refine ⟨?_, ?_⟩
      · rw [hstate, takeWhile_congr hsame, List.takeWhile_cons_of_pos hfree]
        simp
      · rw [hrefusal, List.forall_mem_cons]
        constructor
        · exact fun h => ⟨hfree, fun s hs => hsame s hs ▸ h s hs⟩
        · exact fun h s hs => (hsame s hs).trans (h.2 s hs)

/-- Rows that are all free are added, and then the goal is set. -/
theorem deliver_of_free {rows : List Row} (hdistinct : (rows.map Row.key).Nodup)
    {m : CompiledModel} (hfree : ∀ r ∈ rows, m.isFree r = true) (g : Goal) :
    (target.deliver (rows.map Row.call ++ [.setObjective g.name g.value g.sense]) m).refusal =
        none ∧
      (target.deliver (rows.map Row.call ++ [.setObjective g.name g.value g.sense]) m).state =
        { m with rows := m.rows ++ rows, goal := some g } := by
  obtain ⟨hstate, hrefusal⟩ := deliver_rows hdistinct m
  have hgoal (s : CompiledModel) :
      target.deliver [.setObjective g.name g.value g.sense] s =
        ⟨[.setObjective g.name g.value g.sense], { s with goal := some g }, none⟩ := rfl
  rw [Target.deliver_append, hrefusal.mpr hfree, hstate, hgoal,
    List.takeWhile_eq_self_iff.mpr hfree]
  exact ⟨rfl, rfl⟩

/-- Rows one of which is taken are refused, and the goal is not set. -/
theorem deliver_of_taken {rows : List Row} (hdistinct : (rows.map Row.key).Nodup)
    {m : CompiledModel} (htaken : ∃ r ∈ rows, m.isFree r = false) (g : Goal) :
    (∃ e, (target.deliver (rows.map Row.call ++ [.setObjective g.name g.value g.sense]) m).refusal =
        some e) ∧
      (target.deliver (rows.map Row.call ++ [.setObjective g.name g.value g.sense]) m).state =
        { m with rows := m.rows ++ rows.takeWhile m.isFree } := by
  obtain ⟨hstate, hrefusal⟩ := deliver_rows hdistinct m
  have hsome : (target.deliver (rows.map Row.call) m).refusal ≠ none := by
    intro hnone
    obtain ⟨r, hr, hfalse⟩ := htaken
    have htrue := hrefusal.mp hnone r hr
    rw [hfalse] at htrue
    cases htrue
  obtain ⟨e, he⟩ := Option.ne_none_iff_exists'.mp hsome
  rw [Target.deliver_append, he]
  exact ⟨⟨e, he⟩, hstate⟩

end CompiledModel

end Milp
