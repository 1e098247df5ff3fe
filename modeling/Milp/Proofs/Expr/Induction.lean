import Milp.Expr.Basic

/-! Induction over expressions. A statement about all expressions follows from one case per kind
of node, given the statement for the index positions of a reference, the operands of an operator,
and the body and both sides of the condition of an aggregation. The same places are those that an
expression can stand in within another one. -/
namespace Milp

inductive Expr.Within (d : Expr) : Expr → Prop
  | refl : Within d d
  | position {kind : RefKind} {name : String} {positions : List Expr} {e : Expr} :
      e ∈ positions → Within d e → Within d (.refAt kind name positions)
  | operand {op : UnaryOp} {e : Expr} : Within d e → Within d (.unary op e)
  | left {op : BinaryOp} {l r : Expr} : Within d l → Within d (.binary op l r)
  | right {op : BinaryOp} {l r : Expr} : Within d r → Within d (.binary op l r)
  | body {op : Aggregator} {e : Expr} {ranges : List Range} {condition : Option (Comparison Expr)} :
      Within d e → Within d (.aggregate ⟨op, e, ranges, condition⟩)
  | conditionLeft {op : Aggregator} {e : Expr} {ranges : List Range} {c : Comparison Expr} :
      Within d c.left → Within d (.aggregate ⟨op, e, ranges, some c⟩)
  | conditionRight {op : Aggregator} {e : Expr} {ranges : List Range} {c : Comparison Expr} :
      Within d c.right → Within d (.aggregate ⟨op, e, ranges, some c⟩)

@[induction_eliminator, elab_as_elim]
theorem Expr.induction {motive : Expr → Prop}
    (number : ∀ n, motive (.number n))
    (string : ∀ s, motive (.string s))
    (indexVar : ∀ name, motive (.indexVar name))
    (ref : ∀ kind name, motive (.ref kind name))
    (refAt : ∀ kind name positions, (∀ e ∈ positions, motive e) →
      motive (.refAt kind name positions))
    (unary : ∀ op e, motive e → motive (.unary op e))
    (binary : ∀ op l r, motive l → motive r → motive (.binary op l r))
    (aggregate : ∀ op body ranges condition, motive body →
      (∀ c, condition = some c → motive c.left ∧ motive c.right) →
      motive (.aggregate ⟨op, body, ranges, condition⟩))
    (e : Expr) : motive e := by
  refine @Expr.rec motive (fun es => ∀ e ∈ es, motive e) (fun a => motive (.aggregate a))
    (fun condition => ∀ c, condition = some c → motive c.left ∧ motive c.right)
    (fun c => motive c.left ∧ motive c.right)
    number string indexVar ref refAt unary binary (fun _ h => h) ?_ ?_ aggregate ?_ ?_ ?_ e
  · exact nofun
  · intro e es he hes d hd
    rcases List.mem_cons.mp hd with rfl | hd
    · exact he
    · exact hes d hd
  · exact nofun
  · rintro c hc _ ⟨⟩
    exact hc
  · exact fun _ _ _ _ hl hr => ⟨hl, hr⟩

end Milp
