import Milp.Proofs.Decimal.Finite
import Milp.Proofs.Document.Writing

/-! What accepted documents are read as. What is written of it is nested at most as deep as the
document, apart from fields that a document leaves out, and it has no infinity and no NaN when the
document has none. -/
namespace Milp.Document

open Json (Every Finite)

variable {α : Type} {read : Source → Json → Except Fault α} {write : α → Json} {good : α → Prop}
  {k m : Nat}

/-- Whether all that a reader makes of a value is good if the value is finite, and is written with
the depth of the value, or with some depth that absent fields account for. -/
def Accepts (read : Source → Json → Except Fault α) (write : α → Json) (good : α → Prop)
    (k : Nat) : Prop :=
  ∀ source j a, read source j = .ok a →
    (Every Finite j → good a) ∧ (write a).depth ≤ max k j.depth

/-! ### Atoms, lists and options -/

/-- What is no container is written with any depth. -/
theorem accepts_scalar (h : ∀ a, (write a).depth = 0) : Accepts read write (fun _ => True) k :=
  fun _ _ a _ => ⟨fun _ => trivial, (h a).le.trans (Nat.zero_le _)⟩

theorem depth_writeFloat (x : Float) : (writeFloat x).depth = 0 := by
  rw [writeFloat]
  split <;> rfl

theorem depth_writeNumber (n : Number) : (writeNumber n).depth = 0 := by
  cases n with
  | int v => rfl
  | float x => exact depth_writeFloat x

theorem depth_writeElement (e : Element) : (writeElement e).depth = 0 := by
  cases e <;> rfl

theorem isFinite_floatOfInt (n : Int) : (floatOfInt n).isFinite = true := by
  rw [floatOfInt]
  split
  · exact Double.isFinite_neg (Double.isFinite_toFloat _)
  · exact Double.isFinite_toFloat _

theorem accepts_float : Accepts readFloat writeFloat (fun x => x.isFinite = true) 0 := by
  intro source j x h
  refine ⟨fun hfinite => ?_, (depth_writeFloat x).le.trans (Nat.zero_le _)⟩
  cases j with
  | float y =>
    cases h
    exact hfinite.own _ rfl
  | int n =>
    cases h
    exact isFinite_floatOfInt n
  | _ => cases h

theorem accepts_number : Accepts readNumber writeNumber Number.Finite 0 := by
  intro source j n h
  refine ⟨fun hfinite => ?_, (depth_writeNumber n).le.trans (Nat.zero_le _)⟩
  simp only [readNumber] at h
  split at h
  · cases h
  · split at h
    · split at h
      · cases h
        intro x hx
        cases hx
      · cases h
        rintro _ ⟨⟩
        exact isFinite_floatOfInt _
    · cases h
      rintro _ ⟨⟩
      exact hfinite.own _ rfl
    · cases h

theorem readItems_eq_ok {read : Json → Except Fault α} {closed : Bool} {items : List Json}
    {xs : List α} (h : readItems read closed items = .ok xs) :
    ∀ x ∈ xs, ∃ v ∈ items, read v = .ok x := by
  induction items generalizing xs with
  | nil =>
    rw [readItems] at h
    split at h <;> cases h
    intro x hx
    cases hx
  | cons v items ih =>
    rw [readItems] at h
    split at h
    · cases h
    · rename_i x hx
      cases hrest : readItems read closed items with
      | error fault =>
        rw [hrest] at h
        cases h
      | ok rest =>
        rw [hrest] at h
        cases h
        refine List.forall_mem_cons.mpr ⟨⟨v, List.mem_cons_self, hx⟩, fun y hy => ?_⟩
        obtain ⟨w, hw, hy⟩ := ih hrest y hy
        exact ⟨w, List.mem_cons_of_mem _ hw, hy⟩

/-- A list is nested one deeper than its items are. -/
theorem accepts_list (h : Accepts read write good k) (hk : k = 0 ∨ k < m) :
    Accepts (readList read) (writeList write) (fun xs => ∀ x ∈ xs, good x) m := by
  intro source j xs hread
  cases j with
  | array items closed =>
    have hitems : ∀ x ∈ xs, ∃ v ∈ items, read source v = .ok x := readItems_eq_ok hread
    refine ⟨fun hfinite x hx => ?_, ?_⟩
    · obtain ⟨v, hv, hx⟩ := hitems x hx
      exact (h source v x hx).1 (hfinite.child hv)
    · have hdepth : (writeList write xs).depth ≤ max k (Json.depthItems items) + 1 := by
        refine Json.depth_le_succ.mpr (List.forall_mem_map.mpr fun x hx => ?_)
        obtain ⟨v, hv, hx⟩ := hitems x hx
        have hitem := Json.depthItems_le.mp le_rfl v hv
        exact (h source v x hx).2.trans (max_le_max_left k hitem)
      rw [Json.depth]
      omega
  | _ => cases hread

theorem accepts_option (h : Accepts read write good k) :
    Accepts (readOption read) (writeOption write) (fun o => ∀ x, o = some x → good x) k := by
  intro source j o hread
  have hsome : (read source j).map some = .ok o →
      (Every Finite j → ∀ x, o = some x → good x) ∧
        (writeOption write o).depth ≤ max k j.depth := by
    intro hmap
    cases hj : read source j with
    | error fault =>
      rw [hj] at hmap
      cases hmap
    | ok x =>
      rw [hj] at hmap
      cases hmap
      refine ⟨?_, (h source j x hj).2⟩
      rintro hfinite _ ⟨⟩
      exact (h source j x hj).1 hfinite
  cases j with
  | null =>
    cases hread
    exact ⟨fun _ => nofun, Nat.zero_le _⟩
  | _ => exact hsome hread

/-! ### Records -/

structure Kept (j : Json) (write : α → Json) (good : α → Prop) (k : Nat) (a : α) : Prop where
  good : Every Finite j → good a
  depth : (write a).depth < max (k + 1) j.depth

variable {fs : Fields} {j : Json} {i : Nat} {a : α}

theorem Kept.lt (h : Kept j write good k a) (hpos : 0 < j.depth) (hk : k = 0 ∨ k < m) :
    (write a).depth < max m j.depth := by
  have hdepth := h.depth
  omega

theorem Accepts.child (h : Accepts read write good k) {source : Source} {v : Json}
    (hv : v ∈ j.children) (hread : read source v = .ok a) : Kept j write good k a := by
  obtain ⟨hgood, hdepth⟩ := h source v a hread
  have hlt := Json.depth_lt_of_mem_children hv
  exact ⟨fun hfinite => hgood (hfinite.child hv), by omega⟩

theorem Accepts.required (h : Accepts read write good k) (hfs : fs.From j)
    (hread : fs.required i read = .ok a) : Kept j write good k a := by
  obtain ⟨v, hv, hread⟩ := Fields.required_eq_ok hfs hread
  exact h.child hv hread

theorem Accepts.optional (h : Accepts read write good k) (hfs : fs.From j) {default : α}
    (hread : fs.optional i default read = .ok a) (hgood : good default)
    (hdepth : (write default).depth ≤ k) : Kept j write good k a := by
  obtain rfl | ⟨v, hv, hread⟩ := Fields.optional_eq_ok hfs hread
  · exact ⟨fun _ => hgood, by omega⟩
  · exact h.child hv hread

theorem depth_object_le {fields : List (String × Json)} (hpos : 0 < j.depth)
    (h : (fields.map Prod.snd).Forall fun v => v.depth < max m j.depth) :
    (Json.object fields).depth ≤ max m j.depth := by
  have hmax : 0 < max m j.depth := lt_max_of_lt_right hpos
  obtain ⟨n, hn⟩ := Nat.exists_eq_succ_of_ne_zero hmax.ne'
  rw [hn] at h ⊢
  refine Json.depth_le_succ.mpr fun v hv => ?_
  exact Nat.lt_succ_iff.mp (List.forall_iff_forall_mem.mp h v hv)

/-! ### Declarations -/

theorem accepts_string : Accepts readString .string (fun _ => True) 0 := accepts_scalar fun _ => rfl

theorem accepts_element : Accepts readElement writeElement (fun _ => True) 0 :=
  accepts_scalar depth_writeElement

theorem accepts_set : Accepts readSet writeSet (fun _ => True) 0 := by
  intro source j s h
  obtain ⟨_, hpos, fs, hfs, hmake⟩ := readRecord_eq_ok h
  obtain ⟨_, elements, hmap, helements, rfl⟩ := Placed.seq_eq_ok hmake
  obtain ⟨name, hname, rfl⟩ := Placed.map_eq_ok hmap
  have hname := accepts_string.required hfs hname
  have helements := (accepts_list (m := 0) accepts_element (.inl rfl)).required hfs helements
  exact ⟨fun _ => trivial, depth_object_le hpos ⟨hname.lt hpos (.inl rfl),
    helements.lt hpos (.inl rfl)⟩⟩

theorem accepts_entry : Accepts readEntry writeEntry (fun e => e.value.isFinite = true) 0 := by
  intro source j e h
  obtain ⟨_, hpos, fs, hfs, hmake⟩ := readRecord_eq_ok h
  obtain ⟨_, value, hmap, hvalue, rfl⟩ := Placed.seq_eq_ok hmake
  obtain ⟨index, hindex, rfl⟩ := Placed.map_eq_ok hmap
  have hindex := (accepts_list (m := 0) accepts_element (.inl rfl)).required hfs hindex
  have hvalue := accepts_float.required hfs hvalue
  exact ⟨hvalue.good, depth_object_le hpos ⟨hindex.lt hpos (.inl rfl),
    hvalue.lt hpos (.inl rfl)⟩⟩

theorem accepts_values : Accepts readValues writeValues ParameterValues.Finite 0 := by
  intro source j values h
  rw [readValues] at h
  split at h
  · cases h
  · split at h
    · rename_i n hn
      cases h
      exact accepts_number .nested j n hn
    · cases hlist : readList readEntry .nested j with
      | error fault =>
        rw [hlist] at h
        cases h
      | ok entries =>
        rw [hlist] at h
        cases h
        exact accepts_list accepts_entry (.inl rfl) .nested j entries hlist

/-- A parameter that is made has the data it is made of, and can be made again. -/
theorem checked_of_make {name : String} {indices : List String} {values : ParameterValues}
    {p : Parameter} (h : Parameter.make name indices values = .ok p) :
    p = ⟨name, indices, values⟩ ∧ p.Checked := by
  have hp : p = ⟨name, indices, values⟩ := by
    cases values with
    | scalar n => exact (Except.ok.inj h).symm
    | listed entries =>
      rw [Parameter.make] at h
      split at h
      · cases h
      · exact (Except.ok.inj h).symm
  subst hp
  exact ⟨rfl, h⟩

/-- A parameter that leaves out its index sets is written with none. -/
theorem accepts_parameter :
    Accepts readParameter writeParameter (fun p => p.values.Finite ∧ p.Checked) 2 := by
  intro source j p h
  rw [readParameter] at h
  split at h
  · cases h
  · rename_i name indices values hunchecked
    split at h
    · cases h
    · rename_i q hq
      cases h
      obtain ⟨rfl, hchecked⟩ := checked_of_make hq
      obtain ⟨_, hpos, fs, hfs, hmake⟩ := readRecord_eq_ok hunchecked
      obtain ⟨_, _, hseq, hvalues, happ⟩ := Placed.seq_eq_ok hmake
      obtain ⟨_, _, hmap, hindices, rfl⟩ := Placed.seq_eq_ok hseq
      obtain ⟨_, hname, rfl⟩ := Placed.map_eq_ok hmap
      cases happ
      have hname := accepts_string.required hfs hname
      have hindices := (accepts_list (m := 1) accepts_string (.inl rfl)).optional hfs hindices
        (fun _ _ => trivial) le_rfl
      have hvalues := accepts_values.required hfs hvalues
      exact ⟨fun hfinite => ⟨hvalues.good hfinite, hchecked⟩, depth_object_le hpos
        ⟨hname.lt hpos (.inl rfl), hindices.lt hpos (.inr Nat.one_lt_two),
          hvalues.lt hpos (.inl rfl)⟩⟩

theorem accepts_variable : Accepts readVariable writeVariable Variable.Finite 2 := by
  intro source j v h
  obtain ⟨_, hpos, fs, hfs, hmake⟩ := readRecord_eq_ok h
  obtain ⟨_, upper, hfour, hupper, rfl⟩ := Placed.seq_eq_ok hmake
  obtain ⟨_, lower, hthree, hlower, rfl⟩ := Placed.seq_eq_ok hfour
  obtain ⟨_, domain, htwo, _, rfl⟩ := Placed.seq_eq_ok hthree
  obtain ⟨_, indices, hone, hindices, rfl⟩ := Placed.seq_eq_ok htwo
  obtain ⟨name, hname, rfl⟩ := Placed.map_eq_ok hone
  have hname := accepts_string.required hfs hname
  have hindices := (accepts_list (m := 1) accepts_string (.inl rfl)).optional hfs hindices nofun
    le_rfl
  have hlower := (accepts_option accepts_float).optional hfs hlower nofun le_rfl
  have hupper := (accepts_option accepts_float).optional hfs hupper nofun le_rfl
  refine ⟨fun hfinite => ⟨hlower.good hfinite, hupper.good hfinite⟩, depth_object_le hpos
    ⟨hname.lt hpos (.inl rfl), hindices.lt hpos (.inr Nat.one_lt_two), ?_,
      hlower.lt hpos (.inl rfl), hupper.lt hpos (.inl rfl)⟩⟩
  exact lt_max_of_lt_right hpos

/-! ### Expressions -/

theorem accepts_range : Accepts readRange writeRange (fun _ => True) 0 := by
  intro source j r h
  obtain ⟨_, hpos, fs, hfs, hmake⟩ := readRecord_eq_ok h
  obtain ⟨_, set, htwo, hset, rfl⟩ := Placed.seq_eq_ok hmake
  obtain ⟨_, index, hone, hindex, rfl⟩ := Placed.seq_eq_ok htwo
  obtain ⟨_, _, rfl⟩ := Placed.map_eq_ok hone
  have hindex := accepts_string.required hfs hindex
  have hset := accepts_string.required hfs hset
  exact ⟨fun _ => trivial, depth_object_le hpos ⟨lt_max_of_lt_right hpos,
    hindex.lt hpos (.inl rfl), hset.lt hpos (.inl rfl)⟩⟩

theorem depth_writeForm (form : ComparisonForm) : (writeForm form).depth = 0 := by
  cases form <;> rfl

/-- An expression with one field beside its tag. -/
theorem accepts_single {name tag : String} {make : α → Expr} (h : Accepts read write good 0)
    (hwrite : ∀ a, writeExpr (make a) = .object [(tagField, .string tag), (name, write a)])
    (hgood : ∀ a, good a → (make a).Finite) :
    Accepts (readRecord [[name]] fun fs => make <$> fs.required 0 read) writeExpr
      Expr.Finite 0 := by
  intro source j e hread
  obtain ⟨_, hpos, fs, hfs, hmake⟩ := readRecord_eq_ok hread
  obtain ⟨a, ha, rfl⟩ := Placed.map_eq_ok hmake
  have ha := h.required hfs ha
  rw [hwrite]
  exact ⟨fun hfinite => hgood a (ha.good hfinite),
    depth_object_le hpos ⟨lt_max_of_lt_right hpos, ha.lt hpos (.inl rfl)⟩⟩

section

variable {expr : ExprReader} (hexpr : Accepts expr writeExpr Expr.Finite 0)

include hexpr

theorem accepts_comparison :
    Accepts (readComparison expr) writeComparison Comparison.Finite 0 := by
  intro source j c h
  obtain ⟨_, hpos, fs, hfs, hmake⟩ := readRecord_eq_ok h
  obtain ⟨_, right, hthree, hright, rfl⟩ := Placed.seq_eq_ok hmake
  obtain ⟨_, relation, htwo, _, rfl⟩ := Placed.seq_eq_ok hthree
  obtain ⟨_, left, hone, hleft, rfl⟩ := Placed.seq_eq_ok htwo
  obtain ⟨form, _, rfl⟩ := Placed.map_eq_ok hone
  have hleft := hexpr.required hfs hleft
  have hright := hexpr.required hfs hright
  refine ⟨fun hfinite => ⟨hleft.good hfinite, hright.good hfinite⟩, ?_⟩
  rw [writeComparison_eq]
  have hform : (writeForm form).depth < max 0 j.depth := by
    rw [depth_writeForm]
    exact lt_max_of_lt_right hpos
  exact depth_object_le hpos ⟨hform, hleft.lt hpos (.inl rfl), lt_max_of_lt_right hpos,
    hright.lt hpos (.inl rfl)⟩

theorem accepts_condition : Accepts (readOption (readComparison expr)) writeCondition
    (fun condition => ∀ c, condition = some c → c.Finite) 0 := by
  have hwrite : writeCondition = writeOption writeComparison := by
    funext condition
    cases condition with
    | none => rw [writeCondition, writeOption]
    | some c => rw [writeCondition, writeOption]
  rw [hwrite]
  exact accepts_option (accepts_comparison hexpr)

theorem accepts_aggregation : Accepts (readAggregation expr) writeAggregation
    (fun a => (Expr.aggregate a).Finite) 0 := by
  intro source j a h
  obtain ⟨_, hpos, fs, hfs, hmake⟩ := readRecord_eq_ok h
  obtain ⟨_, condition, hthree, hcondition, rfl⟩ := Placed.seq_eq_ok hmake
  obtain ⟨_, ranges, htwo, hranges, rfl⟩ := Placed.seq_eq_ok hthree
  obtain ⟨_, body, hone, hbody, rfl⟩ := Placed.seq_eq_ok htwo
  obtain ⟨op, _, rfl⟩ := Placed.map_eq_ok hone
  have hbody := hexpr.required hfs hbody
  have hranges := (accepts_list (m := 0) accepts_range (.inl rfl)).required hfs hranges
  have hcondition := (accepts_condition hexpr).optional hfs hcondition nofun
    le_rfl
  refine ⟨fun hfinite =>
    Expr.finite_aggregate.mpr ⟨hbody.good hfinite, hcondition.good hfinite⟩, ?_⟩
  rw [writeAggregation, aggregationFields_eq]
  exact depth_object_le hpos ⟨lt_max_of_lt_right hpos, hbody.lt hpos (.inl rfl),
    hranges.lt hpos (.inl rfl), hcondition.lt hpos (.inl rfl)⟩

theorem accepts_reference (kind : RefKind) :
    Accepts (readReference kind expr) writeExpr Expr.Finite 0 := by
  intro source j e h
  obtain ⟨_, hpos, fs, hfs, hmake⟩ := readRecord_eq_ok h
  obtain ⟨_, positions, hmap, hpositions, rfl⟩ := Placed.seq_eq_ok hmake
  obtain ⟨name, _, rfl⟩ := Placed.map_eq_ok hmap
  have hpositions := (accepts_option (accepts_list (m := 0) hexpr (.inl rfl))).optional hfs
    hpositions nofun le_rfl
  refine ⟨fun hfinite => ?_, ?_⟩
  · have hgood := hpositions.good hfinite
    cases positions with
    | none => exact Expr.finite_ref kind name
    | some es => exact Expr.finite_refAt.mpr (hgood es rfl)
  · rw [writeExpr_reference]
    exact depth_object_le hpos ⟨lt_max_of_lt_right hpos, lt_max_of_lt_right hpos,
      hpositions.lt hpos (.inl rfl)⟩

theorem accepts_unary : Accepts (readTagged expr .unaryOp) writeExpr Expr.Finite 0 := by
  intro source j e h
  obtain ⟨_, hpos, fs, hfs, hmake⟩ := readRecord_eq_ok h
  obtain ⟨_, d, hmap, hd, rfl⟩ := Placed.seq_eq_ok hmake
  obtain ⟨op, _, rfl⟩ := Placed.map_eq_ok hmap
  have hd := hexpr.required hfs hd
  rw [writeExpr]
  exact ⟨fun hfinite => Expr.finite_unary.mpr (hd.good hfinite),
    depth_object_le hpos ⟨lt_max_of_lt_right hpos, lt_max_of_lt_right hpos,
      hd.lt hpos (.inl rfl)⟩⟩

theorem accepts_binary : Accepts (readTagged expr .binaryOp) writeExpr Expr.Finite 0 := by
  intro source j e h
  obtain ⟨_, hpos, fs, hfs, hmake⟩ := readRecord_eq_ok h
  obtain ⟨_, r, htwo, hr, rfl⟩ := Placed.seq_eq_ok hmake
  obtain ⟨_, l, hone, hl, rfl⟩ := Placed.seq_eq_ok htwo
  obtain ⟨op, _, rfl⟩ := Placed.map_eq_ok hone
  have hl := hexpr.required hfs hl
  have hr := hexpr.required hfs hr
  rw [writeExpr]
  exact ⟨fun hfinite => Expr.finite_binary.mpr ⟨hl.good hfinite, hr.good hfinite⟩,
    depth_object_le hpos ⟨lt_max_of_lt_right hpos, lt_max_of_lt_right hpos,
      hl.lt hpos (.inl rfl), hr.lt hpos (.inl rfl)⟩⟩

theorem accepts_tagged (tag : Tag) : Accepts (readTagged expr tag) writeExpr Expr.Finite 0 := by
  match tag with
  | .number =>
    exact accepts_single accepts_number (fun n => by rw [writeExpr])
      fun n => Expr.finite_number.mpr
  | .string =>
    exact accepts_single accepts_string (fun s => by rw [writeExpr]) fun s _ => Expr.finite_string s
  | .indexVariable =>
    exact accepts_single accepts_string (fun name => by rw [writeExpr])
      fun name _ => Expr.finite_indexVar name
  | .variable => exact accepts_reference hexpr .variable
  | .parameter => exact accepts_reference hexpr .parameter
  | .unaryOp => exact accepts_unary hexpr
  | .binaryOp => exact accepts_binary hexpr
  | .aggregation =>
    intro source j e h
    have hmap : (readAggregation expr source j).map Expr.aggregate = .ok e := h
    cases hread : readAggregation expr source j with
    | error fault =>
      rw [hread] at hmap
      cases hmap
    | ok a =>
      rw [hread] at hmap
      cases hmap
      obtain ⟨hgood, hdepth⟩ := accepts_aggregation hexpr source j a hread
      -- The tag is no container.
      have htag : (writeExpr (.aggregate a)).depth = (writeAggregation a).depth := by
        simp only [writeExpr, writeAggregation, Json.depth, Json.depthFields, Nat.zero_max]
      exact ⟨hgood, htag ▸ hdepth⟩

end

/-- The record beside a tag has no other parts than the tagged value. -/
theorem splitTag_eq_some {j tag body : Json} (h : splitTag j = some (tag, body)) :
    (Every Finite j → Every Finite body) ∧ body.depth ≤ j.depth := by
  have hbody : body.Finite ∧ 0 < j.depth ∧ ∀ v ∈ body.children, v ∈ j.children := by
    cases j with
    | object fields closed =>
      simp only [splitTag] at h
      split at h
      · cases h
        refine ⟨Json.finite_object _ closed, Nat.succ_pos _, fun v hv => ?_⟩
        obtain ⟨x, hx, rfl⟩ := List.mem_map.mp hv
        exact List.mem_map_of_mem (List.mem_filter.mp hx).1
      · cases h
    | array items closed =>
      cases items with
      | nil => cases h
      | cons v items =>
        cases h
        exact ⟨Json.finite_array _ closed, Nat.succ_pos _, fun w hw => List.mem_cons_of_mem _ hw⟩
    | _ => cases h
  obtain ⟨hown, hpos, hchildren⟩ := hbody
  refine ⟨fun hfinite => .intro hown fun v hv => hfinite.child (hchildren v hv), ?_⟩
  obtain ⟨n, hn⟩ := Nat.exists_eq_succ_of_ne_zero hpos.ne'
  rw [hn]
  exact Json.depth_le_succ.mpr fun v hv => Json.depth_le_succ.mp hn.le v (hchildren v hv)

theorem accepts_whole (fuel : Nat) : Accepts (readWhole fuel) writeExpr Expr.Finite 0 := by
  induction fuel with
  | zero => exact nofun
  | succ fuel ih =>
    intro source j e h
    rw [readWhole] at h
    split at h
    · cases h
    · rename_i tag body hsplit
      obtain ⟨hfinite, hdepth⟩ := splitTag_eq_some hsplit
      split at h
      · cases h
      · obtain ⟨hgood, hbody⟩ := accepts_tagged ih _ _ body e h
        exact ⟨fun hj => hgood (hfinite hj), hbody.trans (max_le_max_left 0 hdepth)⟩

theorem accepts_expr : Accepts readExpr writeExpr Expr.Finite 0 := by
  intro source j e h
  have hwhole : readWhole j.depth source j = .ok e := by
    cases source with
    | text =>
      cases hscan : scanExpr j with
      | error fault =>
        simp only [readExpr, hscan] at h
        cases h
      | ok _ => simpa only [readExpr, hscan] using h
    | _ => exact h
  exact accepts_whole _ source j e hwhole

/-! ### Constraints, the objective and models -/

theorem accepts_quantifier : Accepts readQuantifier writeQuantifier
    (fun q => ∀ c, q.condition = some c → c.Finite) 0 := by
  intro source j q h
  obtain ⟨_, hpos, fs, hfs, hmake⟩ := readRecord_eq_ok h
  obtain ⟨_, condition, htwo, hcondition, rfl⟩ := Placed.seq_eq_ok hmake
  obtain ⟨_, set, hone, _, rfl⟩ := Placed.seq_eq_ok htwo
  obtain ⟨index, _, rfl⟩ := Placed.map_eq_ok hone
  have hcondition := (accepts_condition accepts_expr).optional hfs hcondition nofun le_rfl
  exact ⟨hcondition.good, depth_object_le hpos ⟨lt_max_of_lt_right hpos,
    lt_max_of_lt_right hpos, hcondition.lt hpos (.inl rfl)⟩⟩

theorem accepts_constraint : Accepts readConstraint writeConstraint Constraint.Finite 0 := by
  intro source j c h
  obtain ⟨_, hpos, fs, hfs, hmake⟩ := readRecord_eq_ok h
  obtain ⟨_, quantifiers, hthree, hquantifiers, rfl⟩ := Placed.seq_eq_ok hmake
  obtain ⟨_, body, htwo, hbody, rfl⟩ := Placed.seq_eq_ok hthree
  obtain ⟨_, name, hone, _, rfl⟩ := Placed.seq_eq_ok htwo
  obtain ⟨_, _, rfl⟩ := Placed.map_eq_ok hone
  have hbody := (accepts_comparison accepts_expr).required hfs hbody
  have hquantifiers := (accepts_option (accepts_list (m := 0) accepts_quantifier
    (.inl rfl))).optional hfs hquantifiers nofun le_rfl
  refine ⟨fun hfinite => ⟨hbody.good hfinite, ?_⟩, depth_object_le hpos
    ⟨lt_max_of_lt_right hpos, lt_max_of_lt_right hpos, hbody.lt hpos (.inl rfl),
      hquantifiers.lt hpos (.inl rfl)⟩⟩
  cases quantifiers with
  | none => exact nofun
  | some qs => exact hquantifiers.good hfinite qs rfl

theorem accepts_objective :
    Accepts readObjective writeObjective (fun o => o.expr.Finite) 0 := by
  intro source j o h
  obtain ⟨_, hpos, fs, hfs, hmake⟩ := readRecord_eq_ok h
  obtain ⟨_, sense, htwo, _, rfl⟩ := Placed.seq_eq_ok hmake
  obtain ⟨_, expr, hone, hexpr, rfl⟩ := Placed.seq_eq_ok htwo
  obtain ⟨name, _, rfl⟩ := Placed.map_eq_ok hone
  have hexpr := accepts_expr.required hfs hexpr
  exact ⟨hexpr.good, depth_object_le hpos ⟨lt_max_of_lt_right hpos, hexpr.lt hpos (.inl rfl),
    lt_max_of_lt_right hpos⟩⟩

/-- A model is four deep when a parameter or a variable leaves out its index sets. -/
theorem accepts_model : Accepts readModel writeModel (fun d => d.Finite ∧ d.Checked) 4 := by
  intro source j d h
  obtain ⟨_, hpos, fs, hfs, hmake⟩ := readRecord_eq_ok h
  obtain ⟨_, objective, hfive, hobjective, rfl⟩ := Placed.seq_eq_ok hmake
  obtain ⟨_, constraints, hfour, hconstraints, rfl⟩ := Placed.seq_eq_ok hfive
  obtain ⟨_, vars, hthree, hvars, rfl⟩ := Placed.seq_eq_ok hfour
  obtain ⟨_, parameters, htwo, hparameters, rfl⟩ := Placed.seq_eq_ok hthree
  obtain ⟨_, sets, hone, hsets, rfl⟩ := Placed.seq_eq_ok htwo
  obtain ⟨name, _, rfl⟩ := Placed.map_eq_ok hone
  have hsets := (accepts_list (m := 1) accepts_set (.inl rfl)).optional hfs hsets nofun le_rfl
  have hparameters := (accepts_list (m := 3) accepts_parameter (.inr (Nat.lt_succ_self 2))).optional
    hfs hparameters nofun (Nat.le_add_left 1 2)
  have hvars := (accepts_list (m := 3) accepts_variable (.inr (Nat.lt_succ_self 2))).optional
    hfs hvars nofun (Nat.le_add_left 1 2)
  have hconstraints := (accepts_list (m := 1) accepts_constraint (.inl rfl)).optional hfs
    hconstraints nofun le_rfl
  have hobjective := (accepts_option accepts_objective).optional hfs hobjective nofun le_rfl
  refine ⟨fun hfinite => ⟨?_, fun p hp => (hparameters.good hfinite p hp).2⟩, depth_object_le hpos
    ⟨lt_max_of_lt_right hpos, hsets.lt hpos (.inr (by decide)),
      hparameters.lt hpos (.inr (by decide)), hvars.lt hpos (.inr (by decide)),
      hconstraints.lt hpos (.inr (by decide)), hobjective.lt hpos (.inl rfl)⟩⟩
  exact ⟨fun p hp => (hparameters.good hfinite p hp).1, hvars.good hfinite,
    hconstraints.good hfinite, hobjective.good hfinite⟩

end Milp.Document
