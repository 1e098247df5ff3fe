/-! Compiler configuration: how much is checked before a compilation, how large enumerations may
get, and how the console logs. -/
namespace Milp

inductive CheckMode where
  /-- Trusts the checks made when declarations were added. -/
  | fast
  /-- Validates the whole model first, and warns about constraint instances without decision
  variables. -/
  | checked
deriving DecidableEq, Repr

/-- Bounds on enumerations; a missing one means unlimited. -/
structure Limits where
  /-- The most tuples that the quantifiers of one constraint may enumerate. -/
  instances : Option Nat := none
  /-- The most tuples that the ranges of one aggregation may enumerate. -/
  terms : Option Nat := none
deriving DecidableEq, Repr

structure Logging where
  /-- The filter directive of the log. -/
  filter : Option String := none
  /-- Whether a banner is printed first. -/
  banner : Bool := true
deriving DecidableEq, Repr

structure Config where
  mode : CheckMode := .fast
  limits : Limits := {}
  logging : Logging := {}
deriving DecidableEq, Repr

inductive ConfigError where
  /-- The file cannot be read. -/
  | unreadable
  | toml
  | yaml
  | json
  /-- The text is well formed and a value makes no sense. -/
  | invalid (detail : String)
deriving DecidableEq, Repr

def ConfigError.invalidMessage (detail : String) : String := "Invalid configuration: " ++ detail

def isBlank (c : Char) : Bool :=
  let n := c.toNat
  (9 ≤ n && n ≤ 13) || n == 0x20 || n == 0x85 || n == 0xA0 || n == 0x1680 ||
    (0x2000 ≤ n && n ≤ 0x200A) || n == 0x2028 || n == 0x2029 || n == 0x202F || n == 0x205F ||
    n == 0x3000

namespace Config

/-- Refuses values that read well and make no sense. -/
def check (c : Config) : Except ConfigError Unit :=
  if c.limits.instances = some 0 then
    .error (.invalid "limits.max_instances_per_constraint must be positive")
  else if c.limits.terms = some 0 then
    .error (.invalid "limits.max_aggregation_terms must be positive")
  else match c.logging.filter with
    | none => .ok ()
    | some filter =>
      if filter.toList.all isBlank then .error (.invalid "logging.filter is empty") else .ok ()

def withInstances (c : Config) (limit : Nat) : Config :=
  { c with limits := { c.limits with instances := some limit } }

def withTerms (c : Config) (limit : Nat) : Config :=
  { c with limits := { c.limits with terms := some limit } }

def withMode (c : Config) (mode : CheckMode) : Config := { c with mode }

def withFilter (c : Config) (filter : String) : Config :=
  { c with logging := { c.logging with filter := some filter } }

end Config

end Milp
