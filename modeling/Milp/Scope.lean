import Milp.Element

/-! Index scopes. A scope is a stack of layers, the innermost first; each layer lists bindings
of index variables in the order they were made. A snapshot flattens a scope for error reports:
each visible name once, in the order of its first binding from the outside, with the value that
a lookup gives. -/
namespace Milp

abbrev Bindings := List (String × Element)

namespace Bindings

def get? (bs : Bindings) (name : String) : Option Element :=
  (bs.find? fun b => b.1 == name).map Prod.snd

/-- Rebinds a name where it stands, or appends it. -/
def set : Bindings → String → Element → Bindings
  | [], name, value => [(name, value)]
  | b :: bs, name, value =>
    if b.1 = name then (name, value) :: bs else b :: set bs name value

def text (bs : Bindings) : String :=
  "\x7b" ++ ", ".intercalate (bs.map fun b => b.1 ++ ": " ++ b.2.text) ++ "\x7d"

end Bindings

/-- Layers of bindings, the innermost first. -/
abbrev Scope := List Bindings

namespace Scope

def root : Scope := []

def child (outer : Scope) (bindings : Bindings) : Scope := bindings :: outer

/-- The value of a name: the last binding in the innermost layer that binds it. -/
def get? : Scope → String → Option Element
  | [], _ => none
  | layer :: outer, name =>
    match (layer.reverse.find? fun b => b.1 == name) with
    | some b => some b.2
    | none => get? outer name

def isEmpty : Scope → Bool
  | [] => true
  | layer :: outer => layer.isEmpty && isEmpty outer

/-- The visible bindings, each name once, outermost first. -/
def snapshot : Scope → Bindings
  | [] => []
  | layer :: outer => layer.foldl (fun bs b => bs.set b.1 b.2) (snapshot outer)

end Scope

end Milp
