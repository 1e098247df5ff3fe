import Milp.Examples.Table
import Milp.Expr.Builder
import Milp.Model.Data

/-! Production planning: two products over three periods. Inventory carries over from one period
to the next, and the first period starts from a fixed stock. -/
namespace Milp.Examples.Planning

def products : IndexSet := ⟨"PRODUCTS", [.str "ProductA", .str "ProductB"]⟩

def periods : IndexSet := ⟨"PERIODS", [.int 1, .int 2, .int 3]⟩

def p : Expr := .indexVar "p"

def t : Expr := .indexVar "t"

def produced : Expr := .var "produce" [p, t]

def stock : Expr := .var "inventory" [p, t]

def demand : Expr := .param "demand" [p, t]

def everywhere (condition : Option (Comparison Expr)) : List Quantifier :=
  [⟨"p", "PRODUCTS", none⟩, ⟨"t", "PERIODS", condition⟩]

def capacityLimit : Constraint :=
  .forAll "capacity_limit" (.plain produced .le (.param "capacity" [p])) (everywhere none)

def initialBalance : Constraint :=
  .forAll "initial_balance" (.plain stock .eq (.param "initial_inv" [p] + produced - demand))
    (everywhere (some (.index t .eq (.int 1))))

def balance : Constraint :=
  .forAll "balance"
    (.plain stock .eq (.var "inventory" [p, t - .int 1] + produced - demand))
    (everywhere (some (.index t .gt (.int 1))))

def totalCost : Expr :=
  .sum (.param "prod_cost" [p] * produced + .param "hold_cost" [p] * stock)
    [⟨"p", "PRODUCTS"⟩, ⟨"t", "PERIODS"⟩] none

def model : ModelData where
  name := "ProductionPlanning"
  sets := [products, periods]
  parameters := [
    table "demand" [products, periods] [100.0, 150.0, 120.0, 80.0, 90.0, 110.0],
    table "prod_cost" [products] [10.0, 15.0],
    table "hold_cost" [products] [1.0, 2.0],
    table "capacity" [products] [200.0, 150.0],
    table "initial_inv" [products] [50.0, 30.0]]
  vars := [
    ⟨"produce", ["PRODUCTS", "PERIODS"], .nonnegativeReal, none, none⟩,
    ⟨"inventory", ["PRODUCTS", "PERIODS"], .nonnegativeReal, none, none⟩]
  constraints := [capacityLimit, initialBalance, balance]
  objective := some ⟨"total_cost", totalCost, .min⟩

end Milp.Examples.Planning
