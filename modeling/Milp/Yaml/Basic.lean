/-! YAML nodes, as far as configurations use them: scalars, mappings and aliases. A scalar has no
kind of its own; what is expected in its place decides what it means. -/
namespace Milp

inductive Yaml.Style where
  | plain
  | quoted
  | literal
  | folded
deriving DecidableEq, Repr

inductive Yaml where
  | scalar (text : String) (style : Yaml.Style) (tag : Option String)
  /-- An alias of the node that was anchored under a number. -/
  | reference (number : Nat)
  | mapping (entries : List (Yaml × Yaml))

namespace Yaml

def missing : Yaml := scalar "" .plain none

/-- Nodes with their anchors' numbers, in the order in which the nodes start. -/
abbrev Anchored := List (Nat × Yaml)

structure Document where
  root : Yaml
  anchored : Anchored := []

/-- The node that a node stands for: for an alias, the last one with its number. -/
def Document.resolve (d : Document) : Yaml → Yaml
  | reference n => (d.anchored.reverse.lookup n).getD missing
  | node => node

end Yaml

end Milp
