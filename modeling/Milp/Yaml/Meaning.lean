import Milp.Yaml.Document

/-! What the scalars of a YAML document mean, given what is expected in their places. -/
namespace Milp.Yaml

def coreTag (name : String) : String := "tag:yaml.org,2002:" ++ name

def isNull (s : String) : Bool := ["~", "null", "Null", "NULL"].contains s

/-- Whether a node stands for no value. A null tag is only for a text that says so. -/
def isAbsent? : Yaml → Option Bool
  | scalar text .plain none => some (text.isEmpty || isNull text)
  | scalar text .plain (some tag) =>
    if tag = coreTag "null" then if isNull text then some true else none else some false
  | _ => some false

/-- The text of a scalar that may be read as something else than a text: a plain one, or a
literal one with the tag of its type. -/
def typed? (type : String) : Yaml → Option String
  | scalar text .plain _ => some text
  | scalar text .literal (some tag) => if tag = coreTag type then some text else none
  | _ => none

def unsigned (cs : List Char) : List Char :=
  match cs with
  | '+' :: rest => rest
  | cs => cs

def inBase? (base : Nat) (cs : List Char) : Option Nat := do
  let ns ← cs.mapM Json.hexValue?
  if ns.isEmpty ∨ ns.any (base ≤ ·) then none
  else some (ns.foldl (fun n d => base * n + d) 0)

/-- A natural number below `2 ^ 64`. A leading zero marks a base or makes it a mere text. -/
def nat? (s : String) : Option Nat := do
  let n ← match unsigned s.toList with
    | '0' :: 'x' :: ds => inBase? 16 ds
    | '0' :: 'o' :: ds => inBase? 8 ds
    | '0' :: 'b' :: ds => inBase? 2 ds
    | '0' :: _ :: _ => none
    | ds => inBase? 10 ds
  if n < Nat.pow 2 64 then some n else none

def bool? (s : String) : Option Bool :=
  if ["true", "True", "TRUE"].contains s then some true
  else if ["false", "False", "FALSE"].contains s then some false
  else none

/-- The name that a node chooses: its text, or a tag of its own, after which nothing stands. -/
def chosen? : Yaml → Option String
  | scalar text style (some tag) =>
    match tag.toList with
    | '!' :: name =>
      if style = .plain ∧ (text.isEmpty ∨ isNull text) then some (String.ofList name) else none
    | _ => some text
  | scalar text _ none => some text
  | _ => none

def textKeys? (d : Document) (entries : List (Yaml × Yaml)) : Option (List (String × Yaml)) :=
  entries.mapM fun (k, v) =>
    match d.resolve k with
    | scalar text _ _ => some (text, v)
    | _ => none

mutual

def toJson (d : Document) : Config.Shape → Yaml → Option Json
  | .choice, node => (chosen? (d.resolve node)).map .string
  | .optionalText, node => do
    let node := d.resolve node
    if ← isAbsent? node then return .null
    else match node with
      | scalar text _ _ => return .string text
      | _ => none
  | .optionalNat, node => do
    let node := d.resolve node
    if ← isAbsent? node then return .null else return .int (← nat? (← typed? "int" node))
  | .flag, node => do return .bool (← bool? (← typed? "bool" (d.resolve node)))
  | .table fields, node =>
    match d.resolve node with
    | scalar text style _ => if text.isEmpty ∧ style = .plain then some (.object []) else none
    | mapping entries => do
      let entries ← textKeys? d entries
      if (entries.map Prod.fst).Nodup ∧ entries.all fun e => fields.any (·.1 == e.1) then
        return .object (← fieldsToJson d fields entries)
      else none
    | .reference _ => none

def fieldsToJson (d : Document) :
    List (String × Config.Shape) → List (String × Yaml) → Option (List (String × Json))
  | [], _ => some []
  | (name, shape) :: fields, entries => do
    let rest ← fieldsToJson d fields entries
    match entries.lookup name with
    | none => return rest
    | some node => return (name, ← toJson d shape node) :: rest

end

end Milp.Yaml
