/-! What stands where in a configuration, whatever format it is written in. -/
namespace Milp.Config

inductive Shape where
  /-- One of some names. -/
  | choice
  | optionalText
  | optionalNat
  | flag
  | table (fields : List (String × Shape))

def shape : Shape :=
  .table [
    ("environment_mode", .choice),
    ("limits", .table [
      ("max_instances_per_constraint", .optionalNat),
      ("max_aggregation_terms", .optionalNat)]),
    ("logging", .table [("filter", .optionalText), ("banner", .flag)])]

end Milp.Config
