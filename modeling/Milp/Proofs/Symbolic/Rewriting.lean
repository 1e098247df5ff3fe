import Milp.Proofs.Evaluation.Handles

/-! Rewriting of handles. An expression is its shape together with its handles from left to right.
Replacing the handles by an action runs the action along that list, puts the results into the list's
places and keeps the shape; so it does what the action does to the list, in the same order, and for
actions without effects it is a map. -/
namespace Milp.Symbolic

variable {V W X σ : Type}

@[induction_eliminator, elab_as_elim]
theorem induction {motive : Symbolic V → Prop}
    (var : ∀ v, motive (.var v))
    (const : ∀ n, motive (.const n))
    (sum : ∀ ts, (∀ t ∈ ts, motive t) → motive (.sum ts))
    (difference : ∀ l r, motive l → motive r → motive (.difference l r))
    (product : ∀ l r, motive l → motive r → motive (.product l r))
    (quotient : ∀ l r, motive l → motive r → motive (.quotient l r))
    (neg : ∀ e, motive e → motive (.neg e))
    (call : ∀ op e, motive e → motive (.call op e))
    (e : Symbolic V) : motive e := by
  refine @Symbolic.rec V motive (fun ts => ∀ t ∈ ts, motive t)
    var const sum difference product quotient neg call nofun ?_ e
  intro t ts ht hts
  exact List.forall_mem_cons.mpr ⟨ht, hts⟩

/-! ### Shapes -/

mutual

def shape : Symbolic V → Symbolic Unit
  | var _ => var ()
  | const n => const n
  | sum ts => sum (shapes ts)
  | difference l r => difference l.shape r.shape
  | product l r => product l.shape r.shape
  | quotient l r => quotient l.shape r.shape
  | neg e => neg e.shape
  | call op e => call op e.shape

def shapes : List (Symbolic V) → List (Symbolic Unit)
  | [] => []
  | t :: ts => t.shape :: shapes ts

end

theorem shapes_eq_map (ts : List (Symbolic V)) : shapes ts = ts.map shape := by
  induction ts with
  | nil => rfl
  | cons t ts ih => rw [shapes, ih, List.map_cons]

theorem termCount_shape (e : Symbolic V) : e.shape.termCount = e.termCount := by
  cases e with
  | sum ts => rw [shape, termCount, termCount, shapes_eq_map, List.length_map]
  | _ => rfl

/-- A shape has a place for each handle. -/
theorem length_vars_shape (e : Symbolic V) : e.shape.vars.length = e.vars.length := by
  induction e with
  | var v => rfl
  | const n => rfl
  | sum ts ih =>
    rw [shape, vars, vars, shapes_eq_map, varsAll_eq_flatMap, varsAll_eq_flatMap,
      List.flatMap_map, List.length_flatMap, List.length_flatMap, List.map_congr_left ih]
  | difference l r hl hr => rw [shape, vars, vars, List.length_append, List.length_append, hl, hr]
  | product l r hl hr => rw [shape, vars, vars, List.length_append, List.length_append, hl, hr]
  | quotient l r hl hr => rw [shape, vars, vars, List.length_append, List.length_append, hl, hr]
  | neg e ih => exact ih
  | call op e ih => exact ih

theorem length_vars_congr {d e : Symbolic V} (h : d.shape = e.shape) :
    d.vars.length = e.vars.length := by
  rw [← length_vars_shape, h, length_vars_shape]

section Determination

/-- Operands in order are determined by their shapes and all their handles, when each operand is by its
own: a shape says how many of the handles are its own. -/
private theorem eq_of_each {ts us : List (Symbolic V)}
    (ih : ∀ t ∈ ts, ∀ u : Symbolic V, t.shape = u.shape → t.vars = u.vars → t = u)
    (hshape : ts.map shape = us.map shape) (hvars : ts.flatMap vars = us.flatMap vars) : ts = us := by
  induction ts generalizing us with
  | nil => exact (List.map_eq_nil_iff.mp hshape.symm).symm
  | cons t ts ihs =>
    cases us with
    | nil => cases hshape
    | cons u us =>
      obtain ⟨hhead, htail⟩ := List.cons.inj hshape
      rw [List.flatMap_cons, List.flatMap_cons] at hvars
      obtain ⟨hvarshead, hvarstail⟩ := List.append_inj hvars (length_vars_congr hhead)
      rw [List.forall_mem_cons] at ih
      rw [ih.1 u hhead hvarshead, ihs ih.2 htail hvarstail]

private theorem eq_of_both {l l' r r' : Symbolic V}
    (hl : ∀ u : Symbolic V, l.shape = u.shape → l.vars = u.vars → l = u)
    (hr : ∀ u : Symbolic V, r.shape = u.shape → r.vars = u.vars → r = u)
    (hshape : l.shape = l'.shape ∧ r.shape = r'.shape)
    (hvars : l.vars ++ r.vars = l'.vars ++ r'.vars) : l = l' ∧ r = r' := by
  have hboth : [l, r] = [l', r'] :=
    eq_of_each (by simpa using ⟨hl, hr⟩) (by simp [hshape]) (by simpa using hvars)
  simpa using hboth

/-- An expression is determined by its shape and its handles. -/
theorem eq_of_shape_of_vars {d e : Symbolic V} (hshape : d.shape = e.shape)
    (hvars : d.vars = e.vars) : d = e := by
  induction d generalizing e with
  | var v =>
    cases e with
    | var w => exact congrArg var (List.cons.inj hvars).1
    | _ => cases hshape
  | const n =>
    cases e with
    | const k => exact congrArg const (const.inj hshape)
    | _ => cases hshape
  | sum ts ih =>
    cases e with
    | sum us =>
      have hshapes := sum.inj hshape
      rw [shapes_eq_map, shapes_eq_map] at hshapes
      rw [vars, vars, varsAll_eq_flatMap, varsAll_eq_flatMap] at hvars
      exact congrArg sum (eq_of_each (fun t ht u => ih t ht) hshapes hvars)
    | _ => cases hshape
  | difference l r hl hr =>
    cases e with
    | difference l' r' =>
      obtain ⟨rfl, rfl⟩ := eq_of_both (fun _ => hl) (fun _ => hr) (difference.inj hshape) hvars
      rfl
    | _ => cases hshape
  | product l r hl hr =>
    cases e with
    | product l' r' =>
      obtain ⟨rfl, rfl⟩ := eq_of_both (fun _ => hl) (fun _ => hr) (product.inj hshape) hvars
      rfl
    | _ => cases hshape
  | quotient l r hl hr =>
    cases e with
    | quotient l' r' =>
      obtain ⟨rfl, rfl⟩ := eq_of_both (fun _ => hl) (fun _ => hr) (quotient.inj hshape) hvars
      rfl
    | _ => cases hshape
  | neg a ih =>
    cases e with
    | neg b => exact congrArg neg (ih (neg.inj hshape) hvars)
    | _ => cases hshape
  | call op a ih =>
    cases e with
    | call op' b =>
      obtain ⟨rfl, hoperand⟩ := call.inj hshape
      exact congrArg (call op) (ih hoperand hvars)
    | _ => cases hshape

def parts (e : Symbolic V) : Symbolic Unit × List V := (e.shape, e.vars)

def partsAll (ts : List (Symbolic V)) : List (Symbolic Unit) × List V := (shapes ts, varsAll ts)

theorem eq_of_parts {d e : Symbolic V} (h : parts d = parts e) : d = e :=
  eq_of_shape_of_vars (Prod.mk.inj h).1 (Prod.mk.inj h).2

end Determination

/-! ### Effects -/

section Effects

variable {m : Type → Type} [Monad m]

def recorded (f : V → m W) (v : V) : StateT (List V) m W := do
  modify (· ++ [v])
  f v

variable [LawfulMonad m]

/-- Two computations, each of which gives a fixed shape and the results of an action along a list, do so
together along both lists. -/
private theorem view_pair {A B C S T U : Type} (a : A → S × List W) (b : B → T × List W)
    (c : C → U × List W) {node : A → B → C} {join : S → T → U}
    (hnode : ∀ x y, c (node x y) = (join (a x).1 (b y).1, (a x).2 ++ (b y).2))
    {f : V → m W} {x : m A} {y : m B} {s : S} {t : T} {vs us : List V}
    (hx : a <$> x = Prod.mk s <$> vs.mapM f) (hy : b <$> y = Prod.mk t <$> us.mapM f) :
    c <$> (do let l ← x; let r ← y; return node l r) =
      Prod.mk (join s t) <$> (vs ++ us).mapM f := by
  calc c <$> (do let l ← x; let r ← y; return node l r)
      = (do let p ← a <$> x; let q ← b <$> y; return (join p.1 q.1, p.2 ++ q.2)) := by
        simp [hnode]
    _ = Prod.mk (join s t) <$> (vs ++ us).mapM f := by
        simp [hx, hy, List.mapM_append]

private theorem view_single {A C S U : Type} (a : A → S × List W) (c : C → U × List W)
    {node : A → C} {wrap : S → U} (hnode : ∀ x, c (node x) = (wrap (a x).1, (a x).2))
    {f : V → m W} {x : m A} {s : S} {vs : List V} (hx : a <$> x = Prod.mk s <$> vs.mapM f) :
    c <$> (do return node (← x)) = Prod.mk (wrap s) <$> vs.mapM f := by
  calc c <$> (do return node (← x))
      = (do let p ← a <$> x; return (wrap p.1, p.2)) := by simp [hnode]
    _ = Prod.mk (wrap s) <$> vs.mapM f := by simp [hx]

/-- Rewriting keeps the shape and does to the handles what the action does to the list of them. -/
theorem parts_mapM (f : V → m W) (e : Symbolic V) :
    parts <$> e.mapM f = Prod.mk e.shape <$> e.vars.mapM f := by
  induction e with
  | var v => simp [mapM, parts, shape, vars, List.mapM_cons]
  | const n => simp [mapM, parts, shape, vars]
  | sum ts ih =>
    have hterms : partsAll <$> mapAllM f ts = Prod.mk (shapes ts) <$> (varsAll ts).mapM f := by
      induction ts with
      | nil => simp [mapAllM, partsAll, shapes, varsAll]
      | cons t ts ihs =>
        rw [List.forall_mem_cons] at ih
        exact view_pair parts partsAll _ (fun _ _ => rfl) ih.1 (ihs ih.2)
    exact view_single partsAll _ (fun _ => rfl) hterms
  | difference l r hl hr => exact view_pair parts parts _ (fun _ _ => rfl) hl hr
  | product l r hl hr => exact view_pair parts parts _ (fun _ _ => rfl) hl hr
  | quotient l r hl hr => exact view_pair parts parts _ (fun _ _ => rfl) hl hr
  | neg e ih => exact view_single parts _ (fun _ => rfl) ih
  | call op e ih => exact view_single parts _ (fun _ => rfl) ih

theorem run_recorded (f : V → m W) (v : V) (seen : List V) :
    (recorded f v).run seen = (fun w => (w, seen ++ [v])) <$> f v := by
  simp [recorded]

/-- Along a list, the record is the list, and nothing else changes. -/
theorem run_mapM_recorded (f : V → m W) (vs seen : List V) :
    (vs.mapM (recorded f)).run seen = (fun ws => (ws, seen ++ vs)) <$> vs.mapM f := by
  induction vs generalizing seen with
  | nil => simp
  | cons v vs ih => simp [List.mapM_cons, run_recorded, ih]

/-- A rewriting applies its action to the handles from left to right, once to each occurrence. -/
theorem run_recorded_mapM (f : V → m W) (e : Symbolic V) (seen : List V) :
    (e.mapM (recorded f)).run seen = (fun u => (u, seen ++ e.vars)) <$> e.mapM f := by
  have hinjective : Function.Injective (Prod.map (parts (V := W)) (id : List V → List V)) :=
    Function.Injective.prodMap (fun _ _ => eq_of_parts) Function.injective_id
  refine (map_inj_right (hinjective ·)).mp ?_
  calc Prod.map parts id <$> (e.mapM (recorded f)).run seen
      = (parts <$> e.mapM (recorded f)).run seen := (StateT.run_map ..).symm
    _ = (fun ws => ((e.shape, ws), seen ++ e.vars)) <$> e.vars.mapM f := by
      simp [parts_mapM, run_mapM_recorded]
    _ = (fun p => (p, seen ++ e.vars)) <$> parts <$> e.mapM f := by simp [parts_mapM]
    _ = Prod.map parts id <$> (fun u => (u, seen ++ e.vars)) <$> e.mapM f := by simp

end Effects

section Maps

def map (f : V → W) (e : Symbolic V) : Symbolic W := Id.run (e.mapM fun v => pure (f v))

theorem parts_map (f : V → W) (e : Symbolic V) : parts (e.map f) = (e.shape, e.vars.map f) := by
  have h := parts_mapM (m := Id) (fun v => pure (f v)) e
  rw [List.mapM_pure] at h
  exact h

/-- A rewriting without effects is a map, whatever effects there could be. -/
theorem mapM_pure {m : Type → Type} [Monad m] [LawfulMonad m] (f : V → W) (e : Symbolic V) :
    (e.mapM fun v => (pure (f v) : m W)) = pure (e.map f) := by
  refine (map_inj_right eq_of_parts).mp ?_
  rw [parts_mapM, List.mapM_pure, map_pure, map_pure, parts_map]

theorem map_id (e : Symbolic V) : e.map id = e := by
  refine eq_of_parts ?_
  rw [parts_map, List.map_id, parts]

theorem map_map (f : V → W) (g : W → X) (e : Symbolic V) : (e.map f).map g = e.map (g ∘ f) := by
  obtain ⟨hshape, hvars⟩ := Prod.mk.inj (parts_map f e)
  refine eq_of_parts ?_
  rw [parts_map, parts_map, hshape, hvars, List.map_map]

end Maps

/-- A run of a rewriting is a run of its action along the handles, with the results in their places. -/
theorem run_mapM {f : V → StateM σ W} {e : Symbolic V} {s s' : σ} {u : Symbolic W}
    (h : (e.mapM f).run s = pure (u, s')) :
    (e.vars.mapM f).run s = pure (u.vars, s') ∧ u.shape = e.shape := by
  have hparts := congrArg (StateT.run · s) (parts_mapM f e)
  simp only [StateT.run_map, h] at hparts
  generalize (e.vars.mapM f).run s = r at hparts ⊢
  obtain ⟨ws, s''⟩ := r
  obtain ⟨hu, rfl⟩ := Prod.mk.inj hparts
  obtain ⟨hshape, rfl⟩ := Prod.mk.inj hu
  exact ⟨rfl, hshape⟩

/-- Rewriting with a stateful action applies it once to each occurrence of a handle, from left to right,
threads the state through in that order, and puts the results in the places of the handles in an
expression that is otherwise the same. Without effects it is a map, which respects identity and
composition. -/
theorem mapM_visits (e : Symbolic V) :
    (∀ (f : V → StateM σ W) (s : σ), ∃ u s', (e.mapM f).run s = pure (u, s') ∧
      (e.vars.mapM f).run s = pure (u.vars, s') ∧ u.shape = e.shape ∧ u.termCount = e.termCount ∧
      ((e.mapM (recorded f)).run []).run s = pure ((u, e.vars), s')) ∧
    (∀ (f : V → W) (s : σ), (e.mapM fun v => (pure (f v) : StateM σ W)).run s = pure (e.map f, s)) ∧
    e.map id = e ∧ ∀ (f : V → W) (g : W → X), (e.map f).map g = e.map (g ∘ f) := by
  refine ⟨fun f s => ?_, fun f s => ?_, map_id e, fun f g => map_map f g e⟩
  · obtain ⟨⟨u, s'⟩, h⟩ : ∃ r, (e.mapM f).run s = pure r := ⟨_, rfl⟩
    obtain ⟨hvars, hshape⟩ := run_mapM h
    refine ⟨u, s', h, hvars, hshape, ?_, ?_⟩
    · rw [← termCount_shape, hshape, termCount_shape]
    · rw [run_recorded_mapM, StateT.run_map, h]
      rfl
  · rw [mapM_pure]
    rfl

example : ((difference (.var "x") (.sum [.const (.int 2), .var "y", .var "x"])).mapM
    fun _ => (modifyGet fun n => (n, n + 1) : StateM Nat Nat)).run 0 =
      pure (.difference (.var 0) (.sum [.const (.int 2), .var 1, .var 2]), 3) := rfl

end Milp.Symbolic
