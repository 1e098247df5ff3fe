import Milp.Document.Declaration
import Milp.Proofs.Compilation.Members
import Milp.Proofs.Declaration.Parameter

/-! References to parameters. A reference has checks of its own for the arity of a parameter and for
the presence of a value; they give what a lookup in the table of the parameter gives, with the
bindings of the scope in the failure. -/
namespace Milp

def Element.literal (x : Element) : Expr := (Scalar.ofElement x).literal

def Error.within (scope : Scope) : Error → Error
  | arity kind name expected found _ => arity kind name expected found scope.snapshot
  | missingValue name index _ => missingValue name index scope.snapshot
  | e => e

def lookedUp {V : Type} (scope : Scope) (x : Except Error Number) : Except Error (Resolved V) :=
  (x.map fun n => .host (.ofNumber n)).mapError (Error.within scope)

variable {V : Type} {st : Setting V} {scope : Scope}

theorem Expr.evalPositions_literals (st : Setting V) (scope : Scope) (name : String) (t : Tuple) :
    evalPositions st scope name (t.map Element.literal) = .ok t := by
  refine evalPositions_elements name (List.forall₂_map_left_iff.mpr (List.forall₂_same.mpr ?_))
  intro x _
  cases x <;> rfl

section

variable {p : Parameter} (hp : st.parameters.get? p.name = some p)
include hp

/-- A reference looks its parameter up with the outcome of the parameter's own lookup. -/
theorem Setting.checked_lookup_parameter (t : Tuple) :
    (st.checkArity .parameter p.name t.length scope >>= fun _ =>
      st.lookup .parameter p.name t scope) = lookedUp scope (p.value t) := by
  rcases p.checkArity_cases t with ⟨h, hcheck⟩ | ⟨h, hcheck⟩
  · simp only [checkArity, dimension, lookup, hp, Option.bind_some, Parameter.value, hcheck, h,
      ne_eq, not_true_eq_false, if_false, ok_bind]
    cases p.get? t <;> rfl
  · simp only [checkArity, dimension, hp, Parameter.value, hcheck, if_pos h, ne_eq]
    rfl

theorem Expr.eval_parameter (t : Tuple) :
    (Expr.refAt .parameter p.name (t.map Element.literal)).eval st scope =
      lookedUp scope (p.value t) := by
  rw [eval, evalPositions_literals, List.length_map, ← Setting.checked_lookup_parameter hp]
  rfl

/-- Without an index list a parameter is looked up at the empty tuple. -/
theorem Expr.eval_parameter_unindexed :
    (Expr.ref .parameter p.name).eval st scope = lookedUp scope (p.value []) := by
  rw [eval, ← Setting.checked_lookup_parameter hp]
  rfl

end

namespace StoredParameter

/-- Tables represent their entries. A parameter can be made exactly when each of its entries has a
position per index set and no tuple is listed twice; otherwise the first entry that does not fit to
those before it is reported, and a document with these data is read with the same outcome. A lookup
in what was made gives what the data say about the tuple, and a reference at literal positions gives
what the parameter's own lookup gives, whichever other declarations there are and whichever index
variables are bound. -/
theorem make_represents (name : String) (indices : List String) (values : ParameterValues) :
    ((∃ p, make name indices values = .ok p) ↔ Tabular indices.length values.entries) ∧
    (∀ error, make name indices values = .error error ↔
      FirstOffence name indices.length values.entries error) ∧
    (∀ source j, Document.readUnchecked source j = .ok (name, indices, values) →
      Document.readParameter source j =
        ((make name indices values).map declaration).mapError .rejected) ∧
    ∀ p, make name indices values = .ok p →
      p.declaration = ⟨name, indices, values⟩ ∧
      ∀ t, values.Gives t (p.get? t) ∧
        ∀ (V : Type) (st : Setting V) (scope : Scope),
          st.parameters.get? name = some p.declaration →
          (Expr.refAt .parameter name (t.map Element.literal)).eval st scope =
              lookedUp scope (p.value t) ∧
            (t = [] → (Expr.ref .parameter name).eval st scope = lookedUp scope (p.value t)) := by
  refine ⟨?_, fun error => make_eq_error, fun source j h => ?_, fun p hp => ?_⟩
  · simp only [make_eq_ok, exists_and_left, exists_eq, and_true]
  · rw [declaration_make, Document.readParameter, h]
    cases hmake : Parameter.make name indices values <;> simp only [hmake] <;> rfl
  · obtain ⟨htabular, hdeclaration⟩ := make_eq_ok.mp hp
    have hdeclared : p.declaration = ⟨name, indices, values⟩ := by rw [hdeclaration]
    refine ⟨hdeclared, fun t => ⟨?_, fun V st scope hst => ?_⟩⟩
    · rw [get?_of_make hp, hdeclared]
      exact Parameter.gives_get? (p := ⟨name, indices, values⟩) htabular t
    · rw [value_of_make hp]
      have hname : p.declaration.name = name := by rw [hdeclared]
      subst hname
      refine ⟨Expr.eval_parameter hst t, ?_⟩
      rintro rfl
      exact Expr.eval_parameter_unindexed hst

def demands : ParameterValues :=
  .listed [⟨[.str "A", .int 1], 100⟩, ⟨[.str "A", .int 2], 150.5⟩]

def demandDocument : Json :=
  .object [("name", .string "demand"), ("indices", .array [.string "P", .string "T"]),
    ("values", .array [
      .object [("index", .array [.string "A", .int 1]), ("value", .float 100)],
      .object [("index", .array [.string "A", .int 2]), ("value", .float 150.5)]])]

def demanding : Setting Member where
  sets := .empty
  parameters := ⟨[.ofScalar "alpha" (.int 3), ⟨"demand", ["P", "T"], demands⟩]⟩
  vars := .empty
  handle _ _ := none

theorem make_represents_demands :
    Document.readUnchecked .value demandDocument = .ok ("demand", ["P", "T"], demands) ∧
    Document.readParameter .value demandDocument = .ok ⟨"demand", ["P", "T"], demands⟩ ∧
    ∃ p, make "demand" ["P", "T"] demands = .ok p ∧
      demanding.parameters.get? "demand" = some p.declaration ∧
      demands.Gives [.str "A", .int 2] (p.get? [.str "A", .int 2]) ∧
      p.get? [.str "A", .int 2] = some (.float 150.5) ∧
      (Expr.param "demand" [.string "A", .int 2]).eval demanding [] = .ok (.host (.float 150.5)) ∧
      (Expr.param "demand" [.string "A", .int 3]).eval demanding [[("t", .int 3)]] =
        .error (.missingValue "demand" [.str "A", .int 3] [("t", .int 3)]) ∧
      (Expr.ref .parameter "demand").eval demanding [] =
        .error (.arity .parameter "demand" 2 0 []) := by
  obtain ⟨-, -, hdocument, hmade⟩ := make_represents "demand" ["P", "T"] demands
  have hread : Document.readUnchecked .value demandDocument = .ok ("demand", ["P", "T"], demands) :=
    rfl
  have hmake : make "demand" ["P", "T"] demands =
      .ok ⟨⟨"demand", ["P", "T"], demands⟩,
        [([.str "A", .int 2], 150.5), ([.str "A", .int 1], 100)]⟩ := rfl
  obtain ⟨-, hgives⟩ := hmade _ hmake
  have hholds : demanding.parameters.get? "demand" = some ⟨"demand", ["P", "T"], demands⟩ := rfl
  refine ⟨hread, hdocument _ _ hread, _, hmake, hholds, (hgives _).1, rfl, ?_, ?_, ?_⟩
  · exact ((hgives [.str "A", .int 2]).2 Member demanding [] hholds).1
  · exact ((hgives [.str "A", .int 3]).2 Member demanding [[("t", .int 3)]] hholds).1
  · exact ((hgives []).2 Member demanding [] hholds).2 rfl

end StoredParameter

end Milp
