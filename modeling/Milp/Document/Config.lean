import Milp.Config
import Milp.Document.Atoms

/-! Configurations as documents. -/
namespace Milp.Document

def checkModes : List (String × CheckMode) := [("fast", .fast), ("checked", .checked)]

def readLimits : Source → Json → Except Fault Limits :=
  readRecord [["max_instances_per_constraint"], ["max_aggregation_terms"]] fun fs =>
    Limits.mk <$> fs.optional 0 none (readOption readNat)
      <*> fs.optional 1 none (readOption readNat)

def readLogging : Source → Json → Except Fault Logging :=
  readRecord [["filter"], ["banner"]] fun fs =>
    Logging.mk <$> fs.optional 0 none (readOption readString) <*> fs.optional 1 true readBool

def readConfig : Source → Json → Except Fault Config :=
  readRecord [["environment_mode"], ["limits"], ["logging"]] fun fs =>
    Config.mk <$> fs.optional 0 .fast (readChoice checkModes) <*> fs.optional 1 {} readLimits
      <*> fs.optional 2 {} readLogging

def writeBound (n : Nat) : Json := .int n

def modeName : CheckMode → String
  | .fast => "fast"
  | .checked => "checked"

def writeConfig (c : Config) : Json :=
  .object [("environment_mode", .string (modeName c.mode)),
    ("limits", .object [
      ("max_instances_per_constraint", writeOption writeBound c.limits.instances),
      ("max_aggregation_terms", writeOption writeBound c.limits.terms)]),
    ("logging", .object [("filter", writeOption .string c.logging.filter),
      ("banner", .bool c.logging.banner)])]

end Milp.Document
