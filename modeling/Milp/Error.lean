import Milp.Scope

/-! The ways in which building, evaluating and compiling a model can fail. Each failure names
its offender and, where index variables are in play, carries a snapshot of their bindings; the
wording is in `Error.message` alone. -/
namespace Milp

inductive RefKind where
  | variable
  | parameter
deriving DecidableEq, Repr

def RefKind.word : RefKind → String
  | .variable => "variable"
  | .parameter => "parameter"

inductive Error where
  /-- An index variable was evaluated outside any binding for it. -/
  | unboundIndex (name : String) (snapshot : Bindings)
  | unknownVariable (name : String) (snapshot : Bindings)
  | unknownParameter (name : String) (snapshot : Bindings)
  | unknownSet (name : String)
  /-- A reference has a different number of index positions than its declaration. -/
  | arity (kind : RefKind) (name : String) (expected found : Nat) (snapshot : Bindings)
  /-- A listed parameter has no entry at a tuple. -/
  | missingValue (name : String) (index : Tuple) (snapshot : Bindings)
  /-- An index position is not usable as a set element. -/
  | invalidIndex (name : String) (detail : String) (snapshot : Bindings)
  /-- A filter condition depends on a decision variable. -/
  | symbolicCondition (condition : String) (snapshot : Bindings)
  | unsupportedOperator (op : String)
  | unsupportedAggregator (op : String)
  /-- A variable family has no member at a tuple. -/
  | outOfRange (name : String) (index : Tuple) (snapshot : Bindings)
  | typeMismatch (op : String) (detail : String) (snapshot : Bindings)
  | divisionByZero (snapshot : Bindings)
  /-- An enumeration is larger than its limit. -/
  | limitExceeded (name : String) (combinations limit : Nat)
  | mixedSet (name : String)
  | repeatedElement (name : String) (element : Element)
  | repeatedIndex (name : String) (index : Tuple)
  | missingObjective (model : String)
  /-- A failure reported by the target of a compilation. -/
  | target (message : String)
deriving DecidableEq

def quoted (name : String) : String := "`" ++ name ++ "`"

def Error.message : Error → String
  | .unboundIndex name s => "index variable " ++ quoted name ++ " is not bound in " ++ s.text
  | .unknownVariable name s => "unknown variable " ++ quoted name ++ " in " ++ s.text
  | .unknownParameter name s => "unknown parameter " ++ quoted name ++ " in " ++ s.text
  | .unknownSet name => "unknown set " ++ quoted name
  | .arity kind name expected found s =>
    kind.word ++ " " ++ quoted name ++ " is indexed by " ++ toString expected ++ " set(s) but "
      ++ toString found ++ " index position(s) were given (in " ++ s.text ++ ")"
  | .missingValue name index s =>
    "parameter " ++ quoted name ++ " has no value at [" ++ index.text ++ "] (in " ++ s.text ++ ")"
  | .invalidIndex name detail s =>
    "invalid index expression for " ++ quoted name ++ ": " ++ detail ++ " (in " ++ s.text ++ ")"
  | .symbolicCondition condition s =>
    "condition " ++ quoted condition ++ " does not resolve to host scalars (in " ++ s.text ++ ")"
  | .unsupportedOperator op => "unsupported operator " ++ quoted op
  | .unsupportedAggregator op => "unsupported aggregation operator " ++ quoted op
  | .outOfRange name index s =>
    "variable " ++ quoted name ++ " has no instance at [" ++ index.text ++ "] (in " ++ s.text ++ ")"
  | .typeMismatch op detail s =>
    "type mismatch in " ++ quoted op ++ ": " ++ detail ++ " (in " ++ s.text ++ ")"
  | .divisionByZero s => "division by zero (in " ++ s.text ++ ")"
  | .limitExceeded name combinations limit =>
    quoted name ++ " would enumerate " ++ toString combinations ++ " combinations, limit is "
      ++ toString limit
  | .mixedSet name => "set " ++ quoted name ++ " mixes string and integer elements"
  | .repeatedElement name element =>
    "set " ++ quoted name ++ " lists element " ++ quoted element.text ++ " more than once"
  | .repeatedIndex name index =>
    "parameter " ++ quoted name ++ " lists index [" ++ index.text ++ "] more than once"
  | .missingObjective model => "model " ++ quoted model ++ " has no objective"
  | .target message => "target model error: " ++ message

end Milp
