import Milp.Examples.Table
import Milp.Expr.Builder
import Milp.Model.Data

/-! Transportation: three warehouses ship to four customers. Supply bounds what a warehouse sends
out, every customer is served, and the shipping cost is minimized. -/
namespace Milp.Examples.Transportation

def warehouses : IndexSet := ⟨"WAREHOUSES", [.str "W1", .str "W2", .str "W3"]⟩

def customers : IndexSet := ⟨"CUSTOMERS", [.str "C1", .str "C2", .str "C3", .str "C4"]⟩

def w : Expr := .indexVar "w"

def c : Expr := .indexVar "c"

def shipped : Expr := .var "ship" [w, c]

def supplyLimit : Constraint :=
  .forAll "supply_limit"
    (.plain (.sum shipped [⟨"c", "CUSTOMERS"⟩] none) .le (.param "supply" [w]))
    [⟨"w", "WAREHOUSES", none⟩]

def demandSatisfaction : Constraint :=
  .forAll "demand_satisfaction"
    (.plain (.sum shipped [⟨"w", "WAREHOUSES"⟩] none) .ge (.param "demand" [c]))
    [⟨"c", "CUSTOMERS", none⟩]

def model : ModelData where
  name := "TransportationProblem"
  sets := [warehouses, customers]
  parameters := [
    table "supply" [warehouses] [100.0, 150.0, 120.0],
    table "demand" [customers] [80.0, 70.0, 60.0, 50.0],
    table "cost" [warehouses, customers]
      [4.0, 6.0, 8.0, 5.0, 5.0, 4.0, 7.0, 6.0, 6.0, 5.0, 4.0, 3.0]]
  vars := [⟨"ship", ["WAREHOUSES", "CUSTOMERS"], .nonnegativeReal, none, none⟩]
  constraints := [supplyLimit, demandSatisfaction]
  objective := some ⟨"total_cost",
    .sum (.param "cost" [w, c] * shipped) [⟨"w", "WAREHOUSES"⟩, ⟨"c", "CUSTOMERS"⟩] none, .min⟩

end Milp.Examples.Transportation
