import Milp.Examples.Table
import Milp.Expr.Builder
import Milp.Model.Data

/-! The smallest useful model: every amount is bounded by its cost, and the weighted sum of the
amounts is minimized. -/
namespace Milp.Examples.Cost

def items : IndexSet := ⟨"I", [.int 1, .int 2, .int 3]⟩

def cost : Expr := .param "cost" [.indexVar "i"]

def amount : Expr := .var "x" [.indexVar "i"]

def model : ModelData where
  name := "costs"
  sets := [items]
  parameters := [table "cost" [items] [5.0, 10.0, 15.0]]
  vars := [⟨"x", ["I"], .nonnegativeReal, none, none⟩]
  constraints := [.forAll "upper" (.plain amount .le cost) [⟨"i", "I", none⟩]]
  objective := some ⟨"total_cost", .sum (cost * amount) [⟨"i", "I"⟩] none, .min⟩

end Milp.Examples.Cost
