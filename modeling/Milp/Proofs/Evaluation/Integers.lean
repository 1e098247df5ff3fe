import Milp.Proofs.Evaluation.Preservation

/-! Integer arithmetic in evaluation. An expression over integers is evaluated to its exact value as
long as every number on the way fits into 64 bits, the totals of sums included. From the first number
on that does not, the result is a double, whatever the operations after it would bring back into
range. -/
namespace Milp

variable {V : Type}

/-- Expressions over integers: literals, index variables, negation, the operators other than
division, and sums under any condition. -/
inductive Expr.Integral : Expr → Prop
  | int (n : Int64) : Integral (.number (.int n))
  | indexVar (name : String) : Integral (.indexVar name)
  | negate {e : Expr} : Integral e → Integral (.unary .negate e)
  | binary {op : BinaryOp} {l r : Expr} :
      op ≠ .div → Integral l → Integral r → Integral (.binary op l r)
  | sum {body : Expr} {ranges : List Range} {condition : Option (Comparison Expr)} :
      Integral body → Integral (.aggregate ⟨.sum, body, ranges, condition⟩)

structure Site where
  scope : Scope
  expr : Expr

mutual

/-- The parts of an expression with the scopes in which its evaluation comes to them, index positions
and conditions left out. -/
def Expr.sites (st : Setting V) (scope : Scope) : Expr → List Site
  | .number n => [⟨scope, .number n⟩]
  | .string s => [⟨scope, .string s⟩]
  | .indexVar name => [⟨scope, .indexVar name⟩]
  | .ref kind name => [⟨scope, .ref kind name⟩]
  | .refAt kind name positions => [⟨scope, .refAt kind name positions⟩]
  | .unary op e => ⟨scope, .unary op e⟩ :: e.sites st scope
  | .binary op l r => ⟨scope, .binary op l r⟩ :: (l.sites st scope ++ r.sites st scope)
  | .aggregate a => ⟨scope, .aggregate a⟩ :: Aggregation.sites st scope a

def Aggregation.sites (st : Setting V) (scope : Scope) : Aggregation Expr → List Site
  | ⟨_, body, ranges, condition⟩ =>
    match st.axes (ranges.map Range.set) with
    | .ok axes =>
      let admitted := (tuples axes).filter (Aggregation.admits st scope ranges condition)
      admitted.flatMap fun t => body.sites st (Aggregation.inner scope ranges t)
    | .error _ => []

end

/-- The numbers that an aggregation adds up, in the order of the tuples. -/
def Aggregation.values (ρ : Valuation V) (st : Setting V) (scope : Scope) :
    Aggregation Expr → List (Option ℚ)
  | ⟨_, body, ranges, condition⟩ =>
    match st.axes (ranges.map Range.set) with
    | .ok axes =>
      let admitted := (tuples axes).filter (Aggregation.admits st scope ranges condition)
      admitted.map fun t => body.meaning ρ st (Aggregation.inner scope ranges t)
    | .error _ => []

def InRange (x : Option ℚ) : Prop := ∃ n : Int64, x = some (n.toInt : ℚ)

theorem inRange_int {k : Int} : InRange (some (k : ℚ)) ↔ ∃ n : Int64, n.toInt = k := by
  simp only [InRange, Option.some.injEq, Int.cast_inj, eq_comm]

namespace Site

/-- Whether the exact value of an expression is in range, and, for a sum of two or more terms, each
total on the way to it. -/
structure Fits (ρ : Valuation V) (st : Setting V) (p : Site) : Prop where
  value : InRange (p.expr.meaning ρ st p.scope)
  totals : ∀ a, p.expr = .aggregate a → 2 ≤ (a.values ρ st p.scope).length →
    ∀ i, InRange (Valuation.sum? ((a.values ρ st p.scope).take i))

def intIndex (p : Site) : Bool :=
  match p.expr with
  | .indexVar name =>
    match p.scope.get? name with
    | some (.int _) => true
    | _ => false
  | _ => true

theorem exists_of_intIndex {scope : Scope} {name : String}
    (h : intIndex ⟨scope, .indexVar name⟩ = true) : ∃ n, scope.get? name = some (.int n) := by
  simp only [intIndex] at h
  split at h
  · exact ⟨_, ‹_›⟩
  · cases h

end Site

namespace Resolved

variable {scope : Scope}

theorem sum_ints {ns : List Int64} {r : Resolved V}
    (h : sum scope (ns.map fun n => host (.int n)) = .ok r) :
    (∃ n : Int64, r = host (.int n) ∧ n.toInt = (ns.map Int64.toInt).sum ∧
      (2 ≤ ns.length → ∀ i, ∃ m : Int64, m.toInt = ((ns.take i).map Int64.toInt).sum)) ∨
    ((∃ x, r = host (.float x)) ∧ 2 ≤ ns.length ∧
      ∃ i, ∀ m : Int64, m.toInt ≠ ((ns.take i).map Int64.toInt).sum) := by
  have hmap : ns.map (fun n => (host (.int n) : Resolved V)) = (ns.map Scalar.int).map host := by
    rw [List.map_map]
    rfl
  rw [hmap] at h
  rcases sum_hosts_cases h with ⟨hns, rfl⟩ | ⟨s, hs, rfl⟩ | ⟨hlength, total, htotal, rfl⟩
  · cases List.map_eq_nil_iff.mp hns
    exact .inl ⟨0, rfl, rfl, fun h => absurd h (by simp)⟩
  · obtain ⟨n, rfl, rfl⟩ := List.map_eq_singleton_iff.mp hs
    exact .inl ⟨n, rfl, by simp, fun h => absurd h (by simp)⟩
  · rw [List.length_map] at hlength
    have hzero (k : Int) : (0 : Int64).toInt + k = k := by simp
    rcases Scalar.total_exact htotal with ⟨n, rfl, hn, hall⟩ | ⟨⟨x, rfl⟩, i, hi⟩
    · simp only [hzero] at hn hall
      exact .inl ⟨n, rfl, hn, fun _ => hall⟩
    · simp only [hzero] at hi
      exact .inr ⟨⟨x, rfl⟩, hlength, i, hi⟩

theorem sum_float {ss : List Scalar} {r : Resolved V} (hss : ∀ s ∈ ss, s.isNumeric = true)
    (hfloat : ∃ s ∈ ss, ∃ x, s = .float x) (h : sum scope (ss.map host) = .ok r) :
    ∃ x, r = host (.float x) := by
  rcases sum_hosts_cases h with ⟨rfl, -⟩ | ⟨s, rfl, rfl⟩ | ⟨-, total, htotal, rfl⟩
  · obtain ⟨s, hs, -⟩ := hfloat
    cases hs
  · obtain ⟨t, ht, x, rfl⟩ := hfloat
    cases List.mem_singleton.mp ht
    exact ⟨x, rfl⟩
  · obtain ⟨x, rfl⟩ := Scalar.total_float rfl hss (.inr hfloat) htotal
    exact ⟨x, rfl⟩

end Resolved

namespace Valuation

variable (ρ : Valuation V)

theorem binary_exactResult {op : BinaryOp} {a b k : Int}
    (h : Scalar.exactResult? op a b = some k) : ρ.binary op a b = k := by
  cases op with
  | div => cases h
  | _ =>
    cases h
    simp [binary]

theorem sum?_ints (ns : List Int64) :
    sum? (ns.map fun n => some (n.toInt : ℚ)) = some (((ns.map Int64.toInt).sum : Int) : ℚ) := by
  rw [sum?_map_some, Int.cast_list_sum, List.map_map]
  rfl

end Valuation

variable (ρ : Valuation V) (st : Setting V) (scope : Scope)

/-- What an integral expression can be evaluated to: its exact value if everything on the way is in
range, and a double if something is not. -/
inductive Expr.Folded (e : Expr) : Resolved V → Prop
  | exact {n : Int64} : e.meaning ρ st scope = some (n.toInt : ℚ) →
      (∀ p ∈ e.sites st scope, p.Fits ρ st) → Folded e (.host (.int n))
  | wide (x : Float) : (∃ p ∈ e.sites st scope, ¬ p.Fits ρ st) → Folded e (.host (.float x))

namespace Expr.Folded

variable {ρ st scope}

/-- An expression other than an aggregation whose parts all fit. -/
theorem of_exact {e : Expr} {c : Scalar} {k : Int} {parts : List Site}
    (hsites : e.sites st scope = ⟨scope, e⟩ :: parts) (hparts : ∀ p ∈ parts, p.Fits ρ st)
    (he : ∀ a, e ≠ .aggregate a) (hmeaning : e.meaning ρ st scope = some (k : ℚ))
    (hexact : c.ExactOrFloat k) : Folded ρ st scope e (.host c) := by
  cases hexact with
  | @exact n hn =>
    rw [← hn] at hmeaning
    refine .exact hmeaning ?_
    rw [hsites, List.forall_mem_cons]
    exact ⟨⟨⟨n, hmeaning⟩, fun a ha => absurd ha (he a)⟩, hparts⟩
  | wide x hwide =>
    refine .wide x ⟨⟨scope, e⟩, hsites ▸ List.mem_cons_self, fun hfits => ?_⟩
    have hvalue := hfits.value
    simp only [hmeaning] at hvalue
    obtain ⟨n, hn⟩ := inRange_int.mp hvalue
    exact hwide n hn

/-- An expression with a part that does not fit. -/
theorem of_part {e : Expr} {x : Float} {parts : List Site}
    (hsites : e.sites st scope = ⟨scope, e⟩ :: parts) (hparts : ∃ p ∈ parts, ¬ p.Fits ρ st) :
    Folded ρ st scope e (.host (.float x)) := by
  obtain ⟨p, hp, hfits⟩ := hparts
  exact .wide x ⟨p, hsites ▸ List.mem_cons_of_mem _ hp, hfits⟩

theorem exists_numeric {e : Expr} {v : Resolved V} (h : Folded ρ st scope e v) :
    ∃ s : Scalar, v = .host s ∧ s.isNumeric = true := by
  cases h with
  | @exact n _ _ => exact ⟨.int n, rfl, rfl⟩
  | wide x _ => exact ⟨.float x, rfl, rfl⟩

theorem negate {e : Expr} {v r : Resolved V} (hv : Folded ρ st scope e v)
    (h : v.unary .negate scope = .ok r) : Folded ρ st scope (.unary .negate e) r := by
  have hsites : (Expr.unary .negate e).sites st scope = ⟨scope, .unary .negate e⟩ ::
      e.sites st scope := by rw [Expr.sites]
  cases hv with
  | @exact n hmeaning hfits =>
    obtain ⟨c, hc, hexact⟩ := Scalar.negate_exact n scope
    rw [Resolved.unary, hc] at h
    cases h
    refine of_exact hsites hfits nofun ?_ hexact
    rw [Expr.meaning, hmeaning]
    simp [Valuation.unary]
  | wide x hparts =>
    cases h
    exact of_part hsites hparts

theorem binary {op : BinaryOp} (hop : op ≠ .div) {l r : Expr} {a b v : Resolved V}
    (ha : Folded ρ st scope l a) (hb : Folded ρ st scope r b)
    (h : Resolved.binary op scope a b = .ok v) : Folded ρ st scope (.binary op l r) v := by
  have hsites : (Expr.binary op l r).sites st scope = ⟨scope, .binary op l r⟩ ::
      (l.sites st scope ++ r.sites st scope) := by rw [Expr.sites]
  obtain ⟨s, rfl, hs⟩ := ha.exists_numeric
  obtain ⟨t, rfl, ht⟩ := hb.exists_numeric
  obtain ⟨c, hc, hv⟩ := bind_eq_ok.mp h
  cases hv
  obtain ⟨-, hfloat⟩ := Scalar.binary_numeric hop hs ht hc
  cases ha with
  | @exact m hm hfits =>
    cases hb with
    | @exact n hn hfits' =>
      obtain ⟨k, hk⟩ := Scalar.exists_exactResult hop m.toInt n.toInt
      obtain ⟨c', hc', hexact⟩ := Scalar.binary_exact hk scope
      cases hc'.symm.trans hc
      refine of_exact hsites (List.forall_mem_append.mpr ⟨hfits, hfits'⟩) nofun ?_ hexact
      rw [Expr.meaning, hm, hn, ← ρ.binary_exactResult hk]
      rfl
    | wide y hparts =>
      obtain ⟨p, hp, hfits⟩ := hparts
      obtain ⟨z, rfl⟩ := hfloat (.inr ⟨y, rfl⟩)
      exact of_part hsites ⟨p, List.mem_append_right _ hp, hfits⟩
  | wide x hparts =>
    obtain ⟨p, hp, hfits⟩ := hparts
    obtain ⟨z, rfl⟩ := hfloat (.inl ⟨x, rfl⟩)
    exact of_part hsites ⟨p, List.mem_append_left _ hp, hfits⟩

/-- Terms of a sum: either all are integers and everything on the way to them fits, or one is a double
and something on the way does not fit. -/
theorem terms_cases {body : Expr} {within : Tuple → Scope} {ts : List Tuple} {vs : List (Resolved V)}
    (h : List.Forall₂ (fun t v => Folded ρ st (within t) body v) ts vs) :
    (∃ ns : List Int64, vs = ns.map (fun n => .host (.int n)) ∧
      ts.map (fun t => body.meaning ρ st (within t)) = ns.map (fun n => some (n.toInt : ℚ)) ∧
      ∀ p ∈ ts.flatMap (fun t => body.sites st (within t)), p.Fits ρ st) ∨
    (∃ ss : List Scalar, vs = ss.map .host ∧ (∀ s ∈ ss, s.isNumeric = true) ∧
      (∃ s ∈ ss, ∃ x, s = .float x) ∧
      ∃ p ∈ ts.flatMap (fun t => body.sites st (within t)), ¬ p.Fits ρ st) := by
  induction h with
  | nil => exact .inl ⟨[], rfl, rfl, nofun⟩
  | @cons t v ts vs hv _ ih =>
    simp only [List.flatMap_cons, List.mem_append]
    rcases ih with ⟨ns, rfl, hmeaning, hfits⟩ | ⟨ss, rfl, hss, ⟨s, hs, hx⟩, p, hp, hfits⟩
    · cases hv with
      | @exact n hn hfits' =>
        exact .inl ⟨n :: ns, rfl, by rw [List.map_cons, hn, hmeaning, List.map_cons],
          fun p hp => hp.elim (hfits' p) (hfits p)⟩
      | wide x hparts =>
        obtain ⟨p, hp, hfits⟩ := hparts
        refine .inr ⟨.float x :: ns.map .int, ?_, ?_, ⟨_, List.mem_cons_self, x, rfl⟩, p, .inl hp,
          hfits⟩
        · rw [List.map_cons, List.map_map]
          rfl
        · simp [Scalar.isNumeric]
    · obtain ⟨s', rfl, hs'⟩ := hv.exists_numeric
      exact .inr ⟨s' :: ss, rfl, List.forall_mem_cons.mpr ⟨hs', hss⟩,
        ⟨s, List.mem_cons_of_mem _ hs, hx⟩, p, .inr hp, hfits⟩

/-- A sum whose terms are integers that all fit. -/
theorem of_ints {a : Aggregation Expr} {ns : List Int64} {r : Resolved V}
    (hvalues : a.values ρ st scope = ns.map fun n => some (n.toInt : ℚ))
    (hmeaning : a.meaning ρ st scope = Valuation.sum? (a.values ρ st scope))
    (hparts : ∀ p ∈ a.sites st scope, p.Fits ρ st)
    (h : Resolved.sum scope (ns.map fun n => .host (.int n)) = .ok r) :
    Folded ρ st scope (.aggregate a) r := by
  have hsites : (Expr.aggregate a).sites st scope = ⟨scope, .aggregate a⟩ :: a.sites st scope := by
    rw [Expr.sites]
  have htotal (i : Nat) : Valuation.sum? ((a.values ρ st scope).take i) =
      some ((((ns.take i).map Int64.toInt).sum : Int) : ℚ) := by
    rw [hvalues, ← List.map_take, Valuation.sum?_ints]
  have hlength : (a.values ρ st scope).length = ns.length := by rw [hvalues, List.length_map]
  rw [hvalues, Valuation.sum?_ints] at hmeaning
  rcases Resolved.sum_ints h with ⟨n, rfl, hn, htotals⟩ | ⟨⟨x, rfl⟩, htwo, i, hi⟩
  · rw [← hn, ← Expr.meaning] at hmeaning
    refine .exact hmeaning ?_
    rw [hsites, List.forall_mem_cons]
    refine ⟨⟨⟨n, hmeaning⟩, ?_⟩, hparts⟩
    rintro _ ⟨⟩ htwo i
    simp only [htotal]
    exact inRange_int.mpr (htotals (hlength ▸ htwo) i)
  · refine .wide x ⟨_, hsites ▸ List.mem_cons_self, fun hfits => ?_⟩
    have hrange := hfits.totals a rfl (hlength.symm ▸ htwo) i
    simp only [htotal] at hrange
    obtain ⟨m, hm⟩ := inRange_int.mp hrange
    exact hi m hm

theorem sum {body : Expr} {ranges : List Range} {condition : Option (Comparison Expr)}
    {axes : List (List Element)} {vs : List (Resolved V)} {r : Resolved V}
    (haxes : st.axes (ranges.map Range.set) = .ok axes)
    (hvs : List.Forall₂ (fun t v => Folded ρ st (Aggregation.inner scope ranges t) body v)
      ((tuples axes).filter (Aggregation.admits st scope ranges condition)) vs)
    (h : Resolved.sum scope vs = .ok r) :
    Folded ρ st scope (.aggregate ⟨.sum, body, ranges, condition⟩) r := by
  have hparts : Aggregation.sites st scope ⟨.sum, body, ranges, condition⟩ =
      ((tuples axes).filter (Aggregation.admits st scope ranges condition)).flatMap
        fun t => body.sites st (Aggregation.inner scope ranges t) := by
    rw [Aggregation.sites, haxes]
  rcases terms_cases hvs with ⟨ns, rfl, hmeanings, hfits⟩ | ⟨ss, rfl, hss, hfloat, hnot⟩
  · rw [← hparts] at hfits
    refine of_ints ?_ ?_ hfits h
    · rw [Aggregation.values, haxes]
      exact hmeanings
    · rw [Aggregation.meaning, Aggregation.values, haxes]
  · rw [← hparts] at hnot
    obtain ⟨x, rfl⟩ := Resolved.sum_float hss hfloat h
    exact of_part (by rw [Expr.sites]) hnot

end Expr.Folded

namespace Expr

theorem Integral.folded {e : Expr} (he : e.Integral) {scope : Scope} {r : Resolved V}
    (hindex : ∀ p ∈ e.sites st scope, p.intIndex = true) (h : e.eval st scope = .ok r) :
    Folded ρ st scope e r := by
  induction he generalizing scope r with
  | int n =>
    cases h
    refine .of_exact (by rw [sites]) (List.forall_mem_nil _) (by simp) ?_ (.exact rfl)
    rw [meaning]
    rfl
  | indexVar name =>
    rw [sites, List.forall_mem_singleton] at hindex
    obtain ⟨n, hn⟩ := Site.exists_of_intIndex hindex
    rw [eval, hn] at h
    cases h
    refine .of_exact (by rw [sites]) (List.forall_mem_nil _) (by simp) ?_ (.exact rfl)
    rw [meaning, hn]
    rfl
  | negate _ ih =>
    rw [eval] at h
    obtain ⟨v, hv, h⟩ := bind_eq_ok.mp h
    rw [sites, List.forall_mem_cons] at hindex
    exact (ih hindex.2 hv).negate h
  | binary hop _ _ ihl ihr =>
    rw [eval] at h
    obtain ⟨a, ha, h⟩ := bind_eq_ok.mp h
    obtain ⟨b, hb, h⟩ := bind_eq_ok.mp h
    rw [sites, List.forall_mem_cons, List.forall_mem_append] at hindex
    exact (ihl hindex.2.1 ha).binary hop (ihr hindex.2.2 hb) h
  | @sum body ranges condition _ ih =>
    rw [eval] at h
    obtain ⟨-, axes, vs, haxes, hvs, hsum⟩ := Aggregation.eval_eq_ok h
    rw [sites, Aggregation.sites, haxes] at hindex
    rw [List.forall_mem_cons, List.forall_mem_flatMap] at hindex
    have hterms := (List.forall₂_and_left _ _).mpr ⟨hindex.2, Aggregation.forall₂_of_terms hvs⟩
    exact .sum haxes (hterms.imp fun t v hv => ih hv.1 hv.2) hsum

/-- An integral expression over integer indices is evaluated to an integer exactly when the exact
values of all its parts and the totals of its sums are in range. The integer is then the exact value,
and otherwise the result is a double. A single operation never wraps: it gives the exact result or,
where that is out of range, a double. -/
theorem eval_integral (e : Expr) (r : Resolved V) (he : e.Integral)
    (hindex : ∀ p ∈ e.sites st scope, p.intIndex = true) (h : e.eval st scope = .ok r) :
    ((∃ n, r = .host (.int n)) ↔ ∀ p ∈ e.sites st scope, p.Fits ρ st) ∧
    (∀ n, r = .host (.int n) → e.meaning ρ st scope = some (n.toInt : ℚ)) ∧
    ((¬ ∀ p ∈ e.sites st scope, p.Fits ρ st) → ∃ x, r = .host (.float x)) ∧
    (∀ (a : Int64) (s : Scope),
      ∃ c, (Scalar.int a).unary .negate s = .ok c ∧ c.ExactOrFloat (-a.toInt)) ∧
    (∀ (op : BinaryOp) (a b : Int64) (s : Scope), op ≠ .div →
      ∃ k, Scalar.exactResult? op a.toInt b.toInt = some k ∧
        ∃ c, (Scalar.int a).binary op (.int b) s = .ok c ∧ c.ExactOrFloat k) := by
  have hresult : ((∃ n, r = .host (.int n)) ↔ ∀ p ∈ e.sites st scope, p.Fits ρ st) ∧
      (∀ n, r = .host (.int n) → e.meaning ρ st scope = some (n.toInt : ℚ)) ∧
      ((¬ ∀ p ∈ e.sites st scope, p.Fits ρ st) → ∃ x, r = .host (.float x)) := by
    cases he.folded ρ st hindex h with
    | @exact n hmeaning hfits =>
      refine ⟨iff_of_true ⟨n, rfl⟩ hfits, ?_, fun hnot => absurd hfits hnot⟩
      rintro _ ⟨⟩
      exact hmeaning
    | wide x hparts =>
      obtain ⟨p, hp, hnot⟩ := hparts
      refine ⟨iff_of_false ?_ fun hall => hnot (hall p hp), nofun, fun _ => ⟨x, rfl⟩⟩
      rintro ⟨n, hn⟩
      cases hn
  obtain ⟨hiff, hexact, hfloat⟩ := hresult
  refine ⟨hiff, hexact, hfloat, Scalar.negate_exact, fun op a b s hop => ?_⟩
  obtain ⟨k, hk⟩ := Scalar.exists_exactResult hop a.toInt b.toInt
  exact ⟨k, hk, Scalar.binary_exact hk s⟩

end Expr

def extremes : Setting Tuple where
  sets := ⟨[⟨"N", [.int 4611686018427387904, .int 4611686018427387905, .int Int64.minValue]⟩]⟩
  parameters := .empty
  vars := .empty
  handle _ _ := none

/-- The sum of all numbers. Its value is one, but the total of the first two numbers is too large. -/
def swing : Expr := .sum (.indexVar "n") [⟨"n", "N"⟩]

def settled : Expr :=
  .negate (.sum (.indexVar "n") [⟨"n", "N"⟩]
    (some (.index (.indexVar "n") .ne (.int 4611686018427387905))))

theorem Expr.eval_integral_extremes :
    (∃ x, swing.eval extremes .root = .ok (.host (.float x))) ∧
    swing.meaning byLength extremes .root = some 1 ∧
    (¬ ∀ p ∈ swing.sites extremes .root, p.Fits byLength extremes) ∧
    settled.eval extremes .root = .ok (.host (.int 4611686018427387904)) ∧
    settled.meaning byLength extremes .root = some 4611686018427387904 ∧
    ∀ p ∈ settled.sites extremes .root, p.Fits byLength extremes := by
  have hswing : ∃ x, swing.eval extremes .root = .ok (.host (.float x)) := ⟨_, rfl⟩
  have hsettled : settled.eval extremes .root = .ok (.host (.int 4611686018427387904)) := rfl
  obtain ⟨x, hx⟩ := hswing
  obtain ⟨hswing', -⟩ := eval_integral byLength extremes .root swing _
    (.sum (.indexVar "n")) (by decide) hx
  obtain ⟨hfits, hmeaning, -⟩ := eval_integral byLength extremes .root settled _
    (.negate (.sum (.indexVar "n"))) (by decide) hsettled
  refine ⟨⟨x, hx⟩, ?_, ?_, hsettled, ?_, hfits.mp ⟨_, rfl⟩⟩
  · decide +kernel
  · intro hall
    obtain ⟨n, hn⟩ := hswing'.mpr hall
    cases hn
  · rw [hmeaning _ rfl]
    rfl

end Milp
