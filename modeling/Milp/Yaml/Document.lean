import Milp.Config.Shape
import Milp.Json.Basic
import Milp.Yaml.Token

/-! YAML documents from their tokens, and what they mean. A text has at most one document. -/
namespace Milp.Yaml

structure Cursor where
  tokens : List Token
  numbers : List (String × Nat) := []

/-- Gives an anchor a number, which is the count of names before it. -/
def Cursor.register (c : Cursor) (name : String) : Cursor :=
  { c with numbers := (name, c.numbers.length) :: c.numbers.filter (·.1 != name) }

def properties : List Token → Option String × Option (String × String) × List Token
  | .anchor a :: .tag h t :: ts => (some a, some (h, t), ts)
  | .tag h t :: .anchor a :: ts => (some a, some (h, t), ts)
  | .anchor a :: ts => (some a, none, ts)
  | .tag h t :: ts => (none, some (h, t), ts)
  | ts => (none, none, ts)

abbrev Handles := List (String × String)

/-- A tag in full. Its handle must be known. -/
def fullTag? (handles : Handles) (handle suffix : String) : Option String :=
  if handle.isEmpty then some suffix else (handles.lookup handle).map (· ++ suffix)

/-- Something read from tokens, the anchored nodes in it, and what follows. -/
abbrev Part (α : Type) := α × Anchored × Cursor

mutual

/-- A node. The fuel bounds the nesting and the number of entries. -/
def readNode (handles : Handles) : Nat → Bool → Cursor → Option (Part Yaml)
  | 0, _, _ => none
  | fuel + 1, block, c =>
    match c.tokens with
    | .reference name :: ts => do
      return (.reference (← c.numbers.lookup name), [], { c with tokens := ts })
    | ts => do
      let (anchor, tag, ts) := properties ts
      let tag ← match tag with
        | some (h, t) => (fullTag? handles h t).map some
        | none => some none
      let c := match anchor with
        | some name => { c with tokens := ts }.register name
        | none => { c with tokens := ts }
      let number := anchor.bind fun name => c.numbers.lookup name
      let anchored (node : Yaml) : Anchored := number.toList.map (·, node)
      match ts with
      | .scalar text style :: ts =>
        let node := scalar text style (if tag = some "!" then none else tag)
        return (node, anchored node, { c with tokens := ts })
      | .flowStart :: ts =>
        let (es, inner, c) ← readFlow handles fuel true { c with tokens := ts }
        return (mapping es, anchored (mapping es) ++ inner, c)
      | .blockStart :: ts =>
        if block then
          let (es, inner, c) ← readBlock handles fuel { c with tokens := ts }
          return (mapping es, anchored (mapping es) ++ inner, c)
        else none
      | _ =>
        if anchor.isSome || tag.isSome then
          let node := scalar "" .plain tag
          return (node, anchored node, c)
        else none

def readOptional (handles : Handles) : Nat → Bool → List Token → Cursor → Option (Part Yaml)
  | 0, _, _, _ => none
  | fuel + 1, block, stops, c =>
    if c.tokens.head?.any stops.contains then some (missing, [], c)
    else readNode handles fuel block c

def readValue (handles : Handles) : Nat → Bool → List Token → Cursor → Option (Part Yaml)
  | 0, _, _, _ => none
  | fuel + 1, block, stops, c =>
    match c.tokens with
    | .value :: ts => readOptional handles fuel block stops { c with tokens := ts }
    | _ => some (missing, [], c)

def readBlock (handles : Handles) : Nat → Cursor → Option (Part (List (Yaml × Yaml)))
  | 0, _ => none
  | fuel + 1, c =>
    match c.tokens with
    | .blockEnd :: ts => some ([], [], { c with tokens := ts })
    | .key :: ts => do
      let stops := [Token.key, .value, .blockEnd]
      let (k, inKey, c) ← readOptional handles fuel true stops { c with tokens := ts }
      let (v, inValue, c) ← readValue handles fuel true stops c
      let (es, inRest, c) ← readBlock handles fuel c
      return ((k, v) :: es, inKey ++ inValue ++ inRest, c)
    | _ => none

/-- The entries of a flow mapping up to its end. There is a comma before each but the first, and
there may be one after the last. -/
def readFlow (handles : Handles) : Nat → Bool → Cursor →
    Option (Part (List (Yaml × Yaml)))
  | 0, _, _ => none
  | fuel + 1, first, c =>
    match c.tokens with
    | .flowEnd :: ts => some ([], [], { c with tokens := ts })
    | .comma :: .flowEnd :: ts => if first then none else some ([], [], { c with tokens := ts })
    | ts => do
      let ts ← if first then some ts else match ts with
        | .comma :: ts => some ts
        | _ => none
      let ((k, v), inEntry, c) ← match ts with
        | .key :: ts => do
          let (k, inKey, c) ←
            readOptional handles fuel false [.value, .comma, .flowEnd] { c with tokens := ts }
          let (v, inValue, c) ← readValue handles fuel false [.comma, .flowEnd] c
          some ((k, v), inKey ++ inValue, c)
        | ts => do
          let (k, inKey, c) ← readNode handles fuel false { c with tokens := ts }
          some ((k, missing), inKey, c)
      let (es, inRest, c) ← readFlow handles fuel false c
      return ((k, v) :: es, inEntry ++ inRest, c)

end

def commonHandles : Handles := [("!", "!"), ("!!", "tag:yaml.org,2002:")]

/-- The handles that directives declare, and the tokens after them. Neither a handle nor the
version is declared twice. -/
def readDirectives (versioned : Bool) (handles : Handles) :
    List Token → Option (Handles × List Token)
  | .directive (.version major minor) :: ts =>
    if versioned || major != 1 || (minor != 1 && minor != 2) then none
    else readDirectives true handles ts
  | .directive (.handle name start) :: ts =>
    if handles.any (·.1 == name) then none
    else readDirectives versioned ((name, start) :: handles) ts
  | ts => some (handles, ts)

/-- Whether a token ends a document in which nothing else stands. -/
def Token.isEdge : Token → Bool
  | .directive _ => true
  | .documentStart => true
  | .documentEnd => true
  | _ => false

def readDocument (handles : Handles) (started : Bool) (ts : List Token) :
    Option Document :=
  if started && ts.head?.all Token.isEdge then
    if ts.all (· == .documentEnd) then some ⟨missing, []⟩ else none
  else do
    let (root, anchored, c) ← readNode handles (4 * ts.length + 4) true { tokens := ts }
    if c.tokens.all (· == .documentEnd) then some ⟨root, anchored⟩ else none

/-- The document of a text. One without tokens is a missing node. -/
def read (text : String) : Option Document := do
  match ← tokens? text with
  | [] => return ⟨missing, []⟩
  | t :: ts =>
    if t.isEdge then
      let (handles, ts) ← readDirectives false [] (t :: ts)
      match ts with
      | .documentStart :: ts => readDocument (handles ++ commonHandles) true ts
      | _ => none
    else readDocument commonHandles false (t :: ts)

end Milp.Yaml
