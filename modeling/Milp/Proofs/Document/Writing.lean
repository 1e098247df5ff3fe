import Milp.Document.Model
import Milp.Proofs.Document.Finite
import Milp.Proofs.Document.Record
import Milp.Proofs.Scalar.Arithmetic

/-! Reading of what was written. Each reader makes the value that its writer was given, with the
fields of objects in any order. Expressions are read from the inside out: the depth of what is
written bounds the depth to which it is read. -/
namespace Milp.Document

open Json (Arrangement Every Tidy)

variable {α : Type}

/-! ### Written values are in one piece -/

theorem tidy_object {fields : List (String × Json)} (hnames : (fields.map Prod.fst).Nodup)
    (h : (fields.map Prod.snd).Forall (Every Tidy)) : Every Tidy (.object fields) :=
  .intro ⟨rfl, hnames⟩ (List.forall_iff_forall_mem.mp h)

theorem tidy_list {write : α → Json} {xs : List α} (h : ∀ x ∈ xs, Every Tidy (write x)) :
    Every Tidy (writeList write xs) :=
  .intro rfl (List.forall_mem_map.mpr h)

theorem tidy_float (x : Float) : Every Tidy (writeFloat x) := by
  rw [writeFloat]
  split <;> exact .leaf trivial rfl

theorem tidy_number (n : Number) : Every Tidy (writeNumber n) := by
  cases n with
  | int v => exact .leaf trivial rfl
  | float x => exact tidy_float x

theorem tidy_element (e : Element) : Every Tidy (writeElement e) := by
  cases e with
  | int v => exact .leaf trivial rfl
  | str s => exact .leaf trivial rfl

theorem tidy_string (s : String) : Every Tidy (.string s) := .leaf trivial rfl

theorem tidy_entry (e : Entry) : Every Tidy (writeEntry e) := by
  exact tidy_object (by simp) ⟨tidy_list fun i _ => tidy_element i, tidy_float e.value⟩

theorem tidy_values (values : ParameterValues) : Every Tidy (writeValues values) := by
  cases values with
  | scalar n => exact tidy_number n
  | listed entries => exact tidy_list fun e _ => tidy_entry e

theorem tidy_range (r : Range) : Every Tidy (writeRange r) := by
  exact tidy_object (by simp) ⟨tidy_string _, tidy_string _, tidy_string _⟩

theorem writeExprs_eq (es : List Expr) : writeExprs es = es.map writeExpr := by
  induction es with
  | nil => rfl
  | cons e es ih => rw [writeExprs, ih, List.map_cons]

theorem writeComparison_eq (c : Comparison Expr) :
    writeComparison c = .object [("type", writeForm c.form), ("left", writeExpr c.left),
      ("op", .string c.relation.name), ("right", writeExpr c.right)] := by
  cases c
  rw [writeComparison]

theorem aggregationFields_eq (a : Aggregation Expr) :
    aggregationFields a = [("op", .string a.op.name), ("expr", writeExpr a.body),
      ("bindings", writeList writeRange a.ranges), ("condition", writeCondition a.condition)] := by
  cases a
  rw [aggregationFields]

theorem writeExpr_reference (kind : RefKind) (name : String) (positions : Option (List Expr)) :
    writeExpr (reference kind name positions) =
      .object [(tagField, .string (referenceTag kind)), ("name", .string name),
        ("index_expr", writeOption (writeList writeExpr) positions)] := by
  cases positions with
  | none => rw [reference, writeExpr, writeOption]
  | some es => rw [reference, writeExpr, writeExprs_eq, writeOption, writeList]

theorem tidy_comparison {c : Comparison Expr} (hl : Every Tidy (writeExpr c.left))
    (hr : Every Tidy (writeExpr c.right)) : Every Tidy (writeComparison c) := by
  have hform : Every Tidy (writeForm c.form) := by cases c.form <;> exact tidy_string _
  rw [writeComparison_eq]
  exact tidy_object (by simp) ⟨hform, hl, tidy_string _, hr⟩

theorem tidy_expr (e : Expr) : Every Tidy (writeExpr e) := by
  induction e with
  | number n =>
    exact tidy_object (by simp [tagField]) ⟨tidy_string _, tidy_number n⟩
  | string s =>
    exact tidy_object (by simp [tagField]) ⟨tidy_string _, tidy_string s⟩
  | indexVar name =>
    exact tidy_object (by simp [tagField]) ⟨tidy_string _, tidy_string name⟩
  | ref kind name =>
    exact tidy_object (by simp [tagField]) ⟨tidy_string _, tidy_string name, .leaf trivial rfl⟩
  | refAt kind name positions ih =>
    have hpositions : Every Tidy (.array (writeExprs positions)) := by
      rw [writeExprs_eq]
      exact tidy_list ih
    exact tidy_object (by simp [tagField]) ⟨tidy_string _, tidy_string name, hpositions⟩
  | unary op e ih =>
    exact tidy_object (by simp [tagField]) ⟨tidy_string _, tidy_string _, ih⟩
  | binary op l r hl hr =>
    exact tidy_object (by simp [tagField]) ⟨tidy_string _, tidy_string _, hl, hr⟩
  | aggregate op body ranges condition hbody hcondition =>
    have hwritten : Every Tidy (writeCondition condition) := by
      cases condition with
      | none => exact .leaf trivial rfl
      | some c => exact tidy_comparison (hcondition c rfl).1 (hcondition c rfl).2
    exact tidy_object (by simp [tagField, aggregationFields])
      ⟨tidy_string _, tidy_string _, hbody, tidy_list fun r _ => tidy_range r, hwritten⟩

/-! ### Atoms, lists and options -/

theorem reads_string (s : String) : Reads readString (.string s) s := by
  intro f hf source
  rw [hf.string]
  rfl

theorem reads_float {x : Float} (h : x.isFinite = true) : Reads readFloat (writeFloat x) x := by
  intro f hf source
  rw [writeFloat, if_pos h, hf.float]
  rfl

theorem reads_number {n : Number} (h : n.Finite) : Reads readNumber (writeNumber n) n := by
  cases n with
  | int v =>
    intro f hf source
    rw [writeNumber, writeInt, hf.int]
    simp only [readNumber, Json.whole, int64?_toInt, Bool.not_true, Bool.false_eq_true, if_false]
  | float x =>
    intro f hf source
    rw [writeNumber, writeFloat, if_pos (h x rfl), hf.float]
    rfl

theorem reads_element (e : Element) : Reads readElement (writeElement e) e := by
  cases e with
  | int v =>
    intro f hf source
    rw [writeElement, writeInt, hf.int]
    simp only [readElement, Json.whole, int64?_toInt, Bool.not_true, Bool.false_eq_true, if_false]
  | str s =>
    intro f hf source
    rw [writeElement, hf.string]
    rfl

variable {read : Source → Json → Except Fault α} {write : α → Json}

theorem reads_list {xs : List α} (h : ∀ x ∈ xs, Reads read (write x) x) :
    Reads (readList read) (writeList write xs) xs := by
  intro f hf source
  have hitems : readItems (read source) true ((xs.map write).map f) = .ok xs := by
    induction xs with
    | nil => rfl
    | cons x xs ih =>
      rw [List.forall_mem_cons] at h
      rw [List.map_cons, List.map_cons, readItems, h.1 f hf source]
      simp only [ih h.2]
      rfl
  rw [writeList, hf.array]
  exact hitems

theorem reads_none : Reads (readOption read) .null none := by
  intro f hf source
  rw [hf.null]
  rfl

/-- A reader that refuses null also reads optional values. -/
theorem reads_some {v : Json} {a : α} (hnull : ∀ source, ∃ fault, read source .null = .error fault)
    (h : Reads read v a) : Reads (readOption read) v (some a) := by
  intro f hf source
  have hread := h f hf source
  obtain ⟨fault, hfault⟩ := hnull source
  have hne : f v ≠ .null := by
    intro hv
    rw [hv, hfault] at hread
    cases hread
  rw [readOption]
  · rw [hread]
    rfl
  · exact hne

theorem reads_option {o : Option α} (hnull : ∀ source, ∃ fault, read source .null = .error fault)
    (h : ∀ x, o = some x → Reads read (write x) x) :
    Reads (readOption read) (writeOption write o) o := by
  cases o with
  | none => exact reads_none
  | some x => exact reads_some hnull (h x rfl)

theorem reads_choice {choices : List (String × α)} {s : String} {a : α}
    (h : choices.lookup s = some a) : Reads (readChoice choices) (.string s) a := by
  intro f hf source
  rw [hf.string]
  simp only [readChoice, h]

/-! ### Declarations -/

theorem reads_set (s : IndexSet) : Reads readSet (writeSet s) s := by
  refine (readsFields_record rfl ?_).reads (by simp)
  intro f hf fs hslots
  have hname := Fields.required_of_reads hf (hslots 0 _ rfl) (reads_string s.name)
  have helements := Fields.required_of_reads hf (hslots 1 _ rfl)
    (reads_list fun e _ => reads_element e)
  rw [hname, helements]
  rfl

theorem reads_entry {e : Entry} (h : e.value.isFinite = true) :
    Reads readEntry (writeEntry e) e := by
  refine (readsFields_record rfl ?_).reads (by simp)
  intro f hf fs hslots
  have hindex := Fields.required_of_reads hf (hslots 0 _ rfl)
    (reads_list fun e _ => reads_element e)
  have hvalue := Fields.required_of_reads hf (hslots 1 _ rfl) (reads_float h)
  rw [hindex, hvalue]
  rfl

theorem reads_values {values : ParameterValues} (h : values.Finite) :
    Reads readValues (writeValues values) values := by
  intro f hf source
  have hwhole : (f (writeValues values)).whole = true :=
    Json.whole_of_tidy (hf.every_tidy (tidy_values values))
  rw [readValues, hwhole]
  cases values with
  | scalar n =>
    simp only [writeValues, reads_number h f hf .nested, Bool.not_true, Bool.false_eq_true,
      if_false]
  | listed entries =>
    have hlist : readList readEntry .nested (f (writeValues (.listed entries))) = .ok entries :=
      reads_list (fun e he => reads_entry (h e he)) f hf .nested
    -- An array is no number, so the second alternative is taken.
    have harray : f (writeValues (.listed entries)) = .array ((entries.map writeEntry).map f) :=
      hf.array _
    have hnumber : readNumber .nested (f (writeValues (.listed entries))) = .error .badShape := by
      rw [harray] at hwhole ⊢
      simp only [readNumber, hwhole, Bool.not_true, Bool.false_eq_true, if_false]
    simp only [hnumber, hlist, Bool.not_true, Bool.false_eq_true, if_false]
    rfl

theorem reads_parameter {p : Parameter} (hchecked : p.Checked) (hfinite : p.values.Finite) :
    Reads readParameter (writeParameter p) p := by
  have hunchecked : Reads readUnchecked (writeParameter p) (p.name, p.indices, p.values) := by
    refine (readsFields_record rfl ?_).reads (by simp)
    intro f hf fs hslots
    have hname := Fields.required_of_reads hf (hslots 0 _ rfl) (reads_string p.name)
    have hindices := Fields.optional_of_reads hf (hslots 1 _ rfl) []
      (reads_list fun s _ => reads_string s)
    have hvalues := Fields.required_of_reads hf (hslots 2 _ rfl) (reads_values hfinite)
    rw [hname, hindices, hvalues]
    rfl
  intro f hf source
  have hmake : Parameter.make p.name p.indices p.values = .ok p := hchecked
  rw [readParameter, hunchecked f hf source]
  simp only [hmake]

theorem reads_variable {v : Variable} (h : v.Finite) :
    Reads readVariable (writeVariable v) v := by
  have hdomain : domains.lookup v.domain.name = some v.domain := by cases v.domain <;> rfl
  refine (readsFields_record rfl ?_).reads (by simp)
  intro f hf fs hslots
  have hname := Fields.required_of_reads hf (hslots 0 _ rfl) (reads_string v.name)
  have hindices := Fields.optional_of_reads hf (hslots 1 _ rfl) []
    (reads_list fun s _ => reads_string s)
  have hchoice := Fields.optional_of_reads hf (hslots 2 _ rfl) Domain.nonnegativeReal
    (reads_choice hdomain)
  have hlower := Fields.optional_of_reads hf (hslots 3 _ rfl) none
    (reads_option (fun _ => ⟨_, rfl⟩) fun x hx => reads_float (h.lower x hx))
  have hupper := Fields.optional_of_reads hf (hslots 4 _ rfl) none
    (reads_option (fun _ => ⟨_, rfl⟩) fun x hx => reads_float (h.upper x hx))
  rw [hname, hindices, hchoice, hlower, hupper]
  rfl

/-! ### Expressions -/

theorem reads_range (r : Range) : Reads readRange (writeRange r) r := by
  refine (readsFields_record rfl ?_).reads (by simp)
  intro f hf fs hslots
  have htype := Fields.optional_of_reads hf (hslots 0 _ rfl) ()
    (reads_choice (rfl : [("index_binding", ())].lookup "index_binding" = some ()))
  have hindex := Fields.required_of_reads hf (hslots 1 _ rfl) (reads_string r.index)
  have hset := Fields.required_of_reads hf (hslots 2 _ rfl) (reads_string r.set)
  rw [htype, hindex, hset]
  rfl

section

variable {expr : ExprReader}

theorem reads_comparison {c : Comparison Expr} (hl : Reads expr (writeExpr c.left) c.left)
    (hr : Reads expr (writeExpr c.right) c.right) :
    Reads (readComparison expr) (writeComparison c) c := by
  have hrelation : Relation.named.lookup c.relation.name = some c.relation := by
    cases c.relation <;> rfl
  have hform : Reads (readChoice comparisonForms) (writeForm c.form) c.form := by
    cases c.form <;> exact reads_choice rfl
  rw [writeComparison_eq]
  refine (readsFields_record rfl ?_).reads (by simp)
  intro f hf fs hslots
  have htype := Fields.optional_of_reads hf (hslots 0 _ rfl) ComparisonForm.comparison hform
  have hleft := Fields.required_of_reads hf (hslots 1 _ rfl) hl
  have hop := Fields.required_of_reads hf (hslots 2 _ rfl) (reads_choice hrelation)
  have hright := Fields.required_of_reads hf (hslots 3 _ rfl) hr
  rw [htype, hleft, hop, hright]
  rfl

theorem reads_condition {condition : Option (Comparison Expr)}
    (h : ∀ c, condition = some c → Reads (readComparison expr) (writeComparison c) c) :
    Reads (readOption (readComparison expr)) (writeCondition condition) condition := by
  cases condition with
  | none => exact reads_none
  | some c => exact reads_some (fun _ => ⟨_, rfl⟩) (h c rfl)

theorem readsFields_aggregation {a : Aggregation Expr}
    (hbody : Reads expr (writeExpr a.body) a.body)
    (hcondition : ∀ c, a.condition = some c →
      Reads (readComparison expr) (writeComparison c) c) :
    ReadsFields (readTagged expr .aggregation) (aggregationFields a) (.aggregate a) := by
  have hop : Aggregator.named.lookup a.op.name = some a.op := by cases a.op <;> rfl
  have hrecord : ReadsFields (readAggregation expr) (aggregationFields a) a := by
    rw [aggregationFields_eq]
    refine readsFields_record rfl ?_
    intro f hf fs hslots
    have hchoice := Fields.required_of_reads hf (hslots 0 _ rfl) (reads_choice hop)
    have hexpr := Fields.required_of_reads hf (hslots 1 _ rfl) hbody
    have hranges := Fields.required_of_reads hf (hslots 2 _ rfl)
      (reads_list fun r _ => reads_range r)
    have hoption := Fields.optional_of_reads hf (hslots 3 _ rfl) none (reads_condition hcondition)
    rw [hchoice, hexpr, hranges, hoption]
    rfl
  intro f hf source shown hperm
  simp only [readTagged, hrecord f hf source shown hperm]
  rfl

theorem readsFields_reference (kind : RefKind) (name : String) {positions : Option (List Expr)}
    (h : ∀ es, positions = some es → ∀ e ∈ es, Reads expr (writeExpr e) e) :
    ReadsFields (readReference kind expr)
      [("name", .string name), ("index_expr", writeOption (writeList writeExpr) positions)]
      (reference kind name positions) := by
  refine readsFields_record rfl ?_
  intro f hf fs hslots
  have hname := Fields.required_of_reads hf (hslots 0 _ rfl) (reads_string name)
  have hpositions := Fields.optional_of_reads hf (hslots 1 _ rfl) none
    (reads_option (fun _ => ⟨_, rfl⟩) fun es hes => reads_list (h es hes))
  rw [hname, hpositions]
  rfl

theorem readsFields_unary (op : UnaryOp) {e : Expr} (h : Reads expr (writeExpr e) e) :
    ReadsFields (readTagged expr .unaryOp) [("op", .string op.name), ("expr", writeExpr e)]
      (.unary op e) := by
  have hop : UnaryOp.named.lookup op.name = some op := by cases op <;> rfl
  refine readsFields_record rfl ?_
  intro f hf fs hslots
  have hchoice := Fields.required_of_reads hf (hslots 0 _ rfl) (reads_choice hop)
  have hoperand := Fields.required_of_reads hf (hslots 1 _ rfl) h
  rw [hchoice, hoperand]
  rfl

theorem readsFields_binary (op : BinaryOp) {l r : Expr} (hl : Reads expr (writeExpr l) l)
    (hr : Reads expr (writeExpr r) r) :
    ReadsFields (readTagged expr .binaryOp)
      [("op", .string op.name), ("left", writeExpr l), ("right", writeExpr r)]
      (.binary op l r) := by
  have hop : BinaryOp.named.lookup op.name = some op := by cases op <;> rfl
  refine readsFields_record rfl ?_
  intro f hf fs hslots
  have hchoice := Fields.required_of_reads hf (hslots 0 _ rfl) (reads_choice hop)
  have hleft := Fields.required_of_reads hf (hslots 1 _ rfl) hl
  have hright := Fields.required_of_reads hf (hslots 2 _ rfl) hr
  rw [hchoice, hleft, hright]
  rfl

end

theorem reads_tag {name : String} {tag : Tag} (h : Tag.named.lookup name = some tag) :
    Reads readTag (.string name) tag := by
  intro f hf source
  rw [hf.string]
  simp only [readTag, h]

/-- A tag stands apart from fields with other names. -/
theorem splitTag_of_perm {tag : Json} {fields shown : List (String × Json)}
    (hother : tagField ∉ fields.map Prod.fst) (hperm : shown.Perm ((tagField, tag) :: fields)) :
    ∃ rest, splitTag (.object shown) = some (tag, .object rest) ∧ rest.Perm fields := by
  have hne : ∀ x ∈ fields, x.1 ≠ tagField := by
    intro x hx hname
    exact hother (hname ▸ List.mem_map_of_mem hx)
  have htagged : shown.filter (fun x => x.1 == tagField) = [(tagField, tag)] := by
    have hnone : fields.filter (fun x => x.1 == tagField) = [] :=
      List.filter_eq_nil_iff.mpr fun x hx => by simpa using hne x hx
    have hfilter := hperm.filter fun x => x.1 == tagField
    rw [List.filter_cons_of_pos (by simp), hnone] at hfilter
    exact List.perm_singleton.mp hfilter
  have hrest : (shown.filter fun x => x.1 != tagField).Perm fields := by
    have hall : fields.filter (fun x => x.1 != tagField) = fields :=
      List.filter_eq_self.mpr fun x hx => by simpa using hne x hx
    have hfilter := hperm.filter fun x => x.1 != tagField
    rwa [List.filter_cons_of_neg (by simp), hall] at hfilter
  refine ⟨shown.filter fun x => x.1 != tagField, ?_, hrest⟩
  simp only [splitTag, htagged]

/-- An expression is read from its tag and the fields that this asks for. -/
theorem reads_tagged {fuel : Nat} {name : String} {tag : Tag} {fields : List (String × Json)}
    {e : Expr} (htag : Tag.named.lookup name = some tag)
    (hnames : (tagField :: fields.map Prod.fst).Nodup)
    (h : ReadsFields (readTagged (readWhole fuel) tag) fields e) :
    Reads (readWhole (fuel + 1)) (.object ((tagField, .string name) :: fields)) e := by
  intro f hf source
  obtain ⟨shown, hshown, hperm⟩ := hf.object ((tagField, .string name) :: fields) hnames
  have hother : tagField ∉ (fields.map fun x => (x.1, f x.2)).map Prod.fst := by
    rw [List.map_map]
    exact (List.nodup_cons.mp hnames).1
  obtain ⟨rest, hsplit, hrest⟩ := splitTag_of_perm hother hperm
  rw [hshown, readWhole, hsplit]
  simp only [reads_tag htag f hf source]
  exact h f hf .nested rest hrest

/-- No fault is found among whole fields with distinct names, one of which may be a tag. -/
theorem scanFields_eq_ok {tagged : Bool} {fields : List (String × Json)}
    (hwhole : ∀ x ∈ fields, x.2.whole = true)
    (htag : ∀ x ∈ fields, x.1 = tagField → tagged = false ∧ ∃ tag, readTag .text x.2 = .ok tag)
    (hnames : (fields.map Prod.fst).Nodup) : scanFields tagged true fields = .ok () := by
  induction fields generalizing tagged with
  | nil => rfl
  | cons field fields ih =>
    obtain ⟨name, v⟩ := field
    rw [List.map_cons, List.nodup_cons] at hnames
    rw [List.forall_mem_cons] at hwhole htag
    rw [scanFields]
    by_cases hname : name = tagField
    · obtain ⟨rfl, tag, hread⟩ := htag.1 hname
      have hother : ∀ x ∈ fields, x.1 = tagField →
          true = false ∧ ∃ tag, readTag .text x.2 = .ok tag := by
        intro x hx hsame
        refine absurd (?_ : name ∈ fields.map Prod.fst) hnames.1
        rw [hname, ← hsame]
        exact List.mem_map_of_mem hx
      simp only [hname, if_true, Bool.false_eq_true, if_false, hread]
      exact ih hwhole.2 hother hnames.2
    · have hv : v.whole = true := hwhole.1
      simp only [hname, if_false, hv, if_true]
      exact ih hwhole.2 htag.2 hnames.2

/-- An expression is written as an object with a tag. -/
theorem exists_tag (e : Expr) : ∃ name tag fields,
    writeExpr e = .object ((tagField, .string name) :: fields) ∧
      Tag.named.lookup name = some tag := by
  cases e with
  | ref kind name => cases kind <;> exact ⟨_, _, _, rfl, rfl⟩
  | refAt kind name positions => cases kind <;> exact ⟨_, _, _, rfl, rfl⟩
  | _ => exact ⟨_, _, _, rfl, rfl⟩

theorem scanExpr_written {f : Json → Json} (hf : Arrangement f) (e : Expr) :
    scanExpr (f (writeExpr e)) = .ok () := by
  obtain ⟨name, tag, fields, hwritten, htag⟩ := exists_tag e
  have htidy : Every Tidy (.object ((tagField, .string name) :: fields)) := hwritten ▸ tidy_expr e
  have hnames : (tagField :: fields.map Prod.fst).Nodup := htidy.own.2
  obtain ⟨shown, hshown, hperm⟩ := hf.object ((tagField, .string name) :: fields) hnames
  have hclosed : Every Tidy (.object shown) := hshown ▸ hf.every_tidy htidy
  rw [hwritten, hshown]
  refine scanFields_eq_ok (fun x hx => ?_) (fun x hx hname => ⟨rfl, tag, ?_⟩) hclosed.own.2
  · exact Json.whole_of_tidy (hclosed.child (List.mem_map_of_mem hx))
  · rcases List.mem_cons.mp (hperm.mem_iff.mp hx) with rfl | hx
    · exact reads_tag htag f hf .text
    · obtain ⟨y, hy, rfl⟩ := List.mem_map.mp hx
      have hname : y.1 = tagField := hname
      refine absurd ?_ (List.nodup_cons.mp hnames).1
      rw [← hname]
      exact List.mem_map_of_mem hy

/-- One level of an expression is read when the expressions below it are. -/
theorem reads_node {fuel : Nat} {e : Expr} (hfinite : e.Finite)
    (hpart : ∀ v ∈ (writeExpr e).children, ∀ d, (writeExpr d).depth ≤ v.depth → d.Finite →
      Reads (readWhole fuel) (writeExpr d) d) :
    Reads (readWhole (fuel + 1)) (writeExpr e) e := by
  cases e with
  | number n =>
    have hvalue := reads_number (Expr.finite_number.mp hfinite)
    exact reads_tagged rfl (by simp [tagField]) (readsFields_single rfl hvalue)
  | string s => exact reads_tagged rfl (by simp [tagField]) (readsFields_single rfl (reads_string s))
  | indexVar name =>
    exact reads_tagged rfl (by simp [tagField]) (readsFields_single rfl (reads_string name))
  | ref kind name =>
    have hnone : ∀ es, (none : Option (List Expr)) = some es → ∀ d ∈ es,
        Reads (readWhole fuel) (writeExpr d) d := nofun
    have hfields := readsFields_reference kind name hnone
    cases kind <;> exact reads_tagged rfl (by simp [tagField]) hfields
  | refAt kind name positions =>
    have hwritten := writeExpr_reference kind name (some positions)
    rw [reference] at hwritten
    rw [hwritten] at hpart ⊢
    have hpositions : ∀ es, some positions = some es → ∀ d ∈ es,
        Reads (readWhole fuel) (writeExpr d) d := by
      rintro es ⟨⟩ d hd
      refine hpart (writeList writeExpr positions) (by simp [Json.children, writeOption]) d ?_
        (Expr.finite_refAt.mp hfinite d hd)
      exact (Json.depth_lt_of_mem_children (List.mem_map_of_mem hd)).le
    have hfields := readsFields_reference kind name hpositions
    cases kind <;> exact reads_tagged rfl (by simp [tagField]) hfields
  | unary op d =>
    have hoperand := hpart (writeExpr d) (by simp [writeExpr, Json.children]) d le_rfl
      (Expr.finite_unary.mp hfinite)
    exact reads_tagged rfl (by simp [tagField]) (readsFields_unary op hoperand)
  | binary op l r =>
    obtain ⟨hl, hr⟩ := Expr.finite_binary.mp hfinite
    have hleft := hpart (writeExpr l) (by simp [writeExpr, Json.children]) l le_rfl hl
    have hright := hpart (writeExpr r) (by simp [writeExpr, Json.children]) r le_rfl hr
    exact reads_tagged rfl (by simp [tagField]) (readsFields_binary op hleft hright)
  | aggregate a =>
    obtain ⟨hbody, hcondition⟩ := Expr.finite_aggregate.mp hfinite
    have hwritten : writeExpr (.aggregate a) =
        .object ((tagField, .string "aggregation") :: aggregationFields a) := by rw [writeExpr]
    rw [hwritten, aggregationFields_eq] at hpart
    have hreads := hpart (writeExpr a.body) (by simp [Json.children]) a.body le_rfl hbody
    have hsides : ∀ c, a.condition = some c →
        Reads (readComparison (readWhole fuel)) (writeComparison c) c := by
      intro c hc
      have hwithin := hpart (writeCondition a.condition) (by simp [Json.children])
      rw [hc, writeCondition] at hwithin
      have hside : ∀ d, writeExpr d ∈ (writeComparison c).children → d.Finite →
          Reads (readWhole fuel) (writeExpr d) d :=
        fun d hd => hwithin d (Json.depth_lt_of_mem_children hd).le
      obtain ⟨hl, hr⟩ := hcondition c hc
      exact reads_comparison (hside c.left (by simp [writeComparison_eq, Json.children]) hl)
        (hside c.right (by simp [writeComparison_eq, Json.children]) hr)
    rw [hwritten]
    exact reads_tagged rfl (by simp [tagField, aggregationFields_eq])
      (readsFields_aggregation hreads hsides)

/-- An expression is read when the depth that is read to suffices for what was written. -/
theorem reads_whole {fuel : Nat} {e : Expr} (hdepth : (writeExpr e).depth ≤ fuel)
    (hfinite : e.Finite) : Reads (readWhole fuel) (writeExpr e) e := by
  induction fuel generalizing e with
  | zero =>
    obtain ⟨name, tag, fields, hwritten, _⟩ := exists_tag e
    rw [hwritten] at hdepth
    cases hdepth
  | succ fuel ih =>
    refine reads_node hfinite fun v hv d hd => ih (hd.trans ?_)
    exact Json.depth_le_succ.mp hdepth v hv

theorem reads_expr {e : Expr} (h : e.Finite) : Reads readExpr (writeExpr e) e := by
  intro f hf source
  have hdepth : (f (writeExpr e)).depth = (writeExpr e).depth := hf.depth (tidy_expr e)
  have hread := reads_whole le_rfl h f hf source
  rw [← hdepth] at hread
  simp only [readExpr, scanExpr_written hf e]
  exact hread

-- A missing index list and an empty one stay apart.
example : readExpr .text (writeExpr (.ref .variable "x")) = .ok (.ref .variable "x") := rfl

example : readExpr .text (writeExpr (.refAt .variable "x" [])) =
    .ok (.refAt .variable "x" []) := rfl

/-! ### Constraints, the objective and models -/

theorem reads_quantifier {q : Quantifier} (h : ∀ d, q.condition = some d → d.Finite) :
    Reads readQuantifier (writeQuantifier q) q := by
  refine (readsFields_record rfl ?_).reads (by simp)
  intro f hf fs hslots
  have hindex := Fields.required_of_reads hf (hslots 0 _ rfl) (reads_string q.index)
  have hset := Fields.required_of_reads hf (hslots 1 _ rfl) (reads_string q.set)
  have hcondition := Fields.optional_of_reads hf (hslots 2 _ rfl) none
    (reads_condition fun c hc => reads_comparison (reads_expr (h c hc).1) (reads_expr (h c hc).2))
  rw [hindex, hset, hcondition]
  rfl

theorem reads_constraint {c : Constraint} (h : c.Finite) :
    Reads readConstraint (writeConstraint c) c := by
  have hquantifier : ∀ qs, c.quantifierList = some qs → ∀ q ∈ qs,
      Reads readQuantifier (writeQuantifier q) q := by
    intro qs hqs q hq
    refine reads_quantifier (h.conditions q ?_)
    rwa [Constraint.quantifiers, hqs]
  refine (readsFields_record rfl ?_).reads (by simp)
  intro f hf fs hslots
  have htype := Fields.optional_of_reads hf (hslots 0 _ rfl) ()
    (reads_choice (rfl : [("constraint", ())].lookup "constraint" = some ()))
  have hname := Fields.required_of_reads hf (hslots 1 _ rfl) (reads_string c.name)
  have hbody := Fields.required_of_reads hf (hslots 2 _ rfl)
    (reads_comparison (reads_expr h.body.1) (reads_expr h.body.2))
  have hquantifiers := Fields.optional_of_reads hf (hslots 3 _ rfl) none
    (reads_option (fun _ => ⟨_, rfl⟩) fun qs hqs => reads_list (hquantifier qs hqs))
  rw [htype, hname, hbody, hquantifiers]
  rfl

theorem reads_objective {o : Objective} (h : o.expr.Finite) :
    Reads readObjective (writeObjective o) o := by
  have hsense : senses.lookup o.sense.name = some o.sense := by cases o.sense <;> rfl
  refine (readsFields_record rfl ?_).reads (by simp)
  intro f hf fs hslots
  have hname := Fields.required_of_reads hf (hslots 0 _ rfl) (reads_string o.name)
  have hexpr := Fields.required_of_reads hf (hslots 1 _ rfl) (reads_expr h)
  have hchoice := Fields.optional_of_reads hf (hslots 2 _ rfl) Sense.min (reads_choice hsense)
  rw [hname, hexpr, hchoice]
  rfl

/-- A model is read from what is written of it. -/
theorem reads_model {d : ModelData} (hfinite : d.Finite) (hchecked : d.Checked) :
    Reads readModel (writeModel d) d := by
  refine (readsFields_record rfl ?_).reads (by simp)
  intro f hf fs hslots
  have hname := Fields.required_of_reads hf (hslots 0 _ rfl) (reads_string d.name)
  have hsets := Fields.optional_of_reads hf (hslots 1 _ rfl) []
    (reads_list fun s _ => reads_set s)
  have hparameters := Fields.optional_of_reads hf (hslots 2 _ rfl) []
    (reads_list fun p hp => reads_parameter (hchecked p hp) (hfinite.parameters p hp))
  have hvars := Fields.optional_of_reads hf (hslots 3 _ rfl) []
    (reads_list fun v hv => reads_variable (hfinite.vars v hv))
  have hconstraints := Fields.optional_of_reads hf (hslots 4 _ rfl) []
    (reads_list fun c hc => reads_constraint (hfinite.constraints c hc))
  have hobjective := Fields.optional_of_reads hf (hslots 5 _ rfl) none
    (reads_option (fun _ => ⟨_, rfl⟩) fun o ho => reads_objective (hfinite.objective o ho))
  rw [hname, hsets, hparameters, hvars, hconstraints, hobjective]
  rfl

end Milp.Document
