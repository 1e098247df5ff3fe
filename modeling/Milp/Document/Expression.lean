import Milp.Constraint
import Milp.Document.Atoms

/-! Expressions, comparisons, constraints and objectives as documents. An expression is a record
with a tag, its `type`, that says which fields the others are; the fields are read only when the
whole expression was seen. -/
namespace Milp.Document

inductive Tag where
  | number
  | string
  | indexVariable
  | variable
  | parameter
  | unaryOp
  | binaryOp
  | aggregation
deriving DecidableEq

def Tag.named : List (String × Tag) :=
  [("number", .number), ("string", .string), ("index_variable", .indexVariable),
    ("variable", .variable), ("parameter", .parameter), ("unary_op", .unaryOp),
    ("binary_op", .binaryOp), ("aggregation", .aggregation)]

/-- A tag. Inside another expression the position in the list of tags will do as well. -/
def readTag (source : Source) : Json → Except Fault Tag
  | .string s =>
    match Tag.named.lookup s with
    | some tag => .ok tag
    | none => .error .badShape
  | .int n =>
    if source = .nested ∧ 0 ≤ n then
      match Tag.named[n.toNat]? with
      | some (_, tag) => .ok tag
      | none => .error .badShape
    else .error .badShape
  | .torn => .error .notJson
  | _ => .error .badShape

def tagField : String := "type"

/-- Looks for a fault among the fields of an expression before the others are read: the tag is
read where it stands, and every other field is seen in full. -/
def scanFields (tagged closed : Bool) : List (String × Json) → Except Fault Unit
  | [] => if closed then .ok () else .error .notJson
  | (name, j) :: rest =>
    if name = tagField then
      if tagged then .error .badShape
      else match readTag .text j with
        | .error fault => .error fault
        | .ok _ => scanFields true closed rest
    else if j.whole then scanFields tagged closed rest
    else .error .notJson

/-- Looks for a fault in an expression before its fields are read. -/
def scanExpr : Json → Except Fault Unit
  | .object fields closed => scanFields false closed fields
  | .array [] closed => .error (if closed then .badShape else .notJson)
  | .array (tag :: rest) closed =>
    match readTag .text tag with
    | .error fault => .error fault
    | .ok _ => if Json.wholeItems rest && closed then .ok () else .error .notJson
  | .torn => .error .notJson
  | _ => .error .badShape

def splitTag : Json → Option (Json × Json)
  | .object fields closed =>
    match fields.filter fun f => f.1 == tagField with
    | [(_, tag)] => some (tag, .object (fields.filter fun f => f.1 != tagField) closed)
    | _ => none
  | .array (tag :: rest) closed => some (tag, .array rest closed)
  | _ => none

abbrev ExprReader := Source → Json → Except Fault Expr

def comparisonForms : List (String × ComparisonForm) :=
  [("comparison", .comparison), ("index_comparison", .indexComparison)]

def readComparison (expr : ExprReader) : Source → Json → Except Fault (Comparison Expr) :=
  readRecord [["type"], ["left"], ["op"], ["right"]] fun fs =>
    Comparison.mk <$> fs.optional 0 .comparison (readChoice comparisonForms)
      <*> fs.required 1 expr <*> fs.required 2 (readChoice Relation.named)
      <*> fs.required 3 expr

def readRange : Source → Json → Except Fault Range :=
  readRecord [["type"], ["index_var"], ["set_name"]] fun fs =>
    (fun () index set => Range.mk index set)
      <$> fs.optional 0 () (readChoice [("index_binding", ())])
      <*> fs.required 1 readString <*> fs.required 2 readString

def readAggregation (expr : ExprReader) : Source → Json → Except Fault (Aggregation Expr) :=
  readRecord [["op"], ["expr"], ["bindings"], ["condition"]] fun fs =>
    Aggregation.mk <$> fs.required 0 (readChoice Aggregator.named) <*> fs.required 1 expr
      <*> fs.required 2 (readList readRange)
      <*> fs.optional 3 none (readOption (readComparison expr))

def reference (kind : RefKind) (name : String) : Option (List Expr) → Expr
  | none => .ref kind name
  | some positions => .refAt kind name positions

def readReference (kind : RefKind) (expr : ExprReader) : Source → Json → Except Fault Expr :=
  readRecord [["name"], ["index_expr"]] fun fs =>
    reference kind <$> fs.required 0 readString
      <*> fs.optional 1 none (readOption (readList expr))

def readTagged (expr : ExprReader) : Tag → Source → Json → Except Fault Expr
  | .number => readRecord [["value"]] fun fs => Expr.number <$> fs.required 0 readNumber
  | .string => readRecord [["value"]] fun fs => Expr.string <$> fs.required 0 readString
  | .indexVariable => readRecord [["name"]] fun fs => Expr.indexVar <$> fs.required 0 readString
  | .variable => readReference .variable expr
  | .parameter => readReference .parameter expr
  | .unaryOp => readRecord [["op"], ["expr"]] fun fs =>
    Expr.unary <$> fs.required 0 (readChoice UnaryOp.named) <*> fs.required 1 expr
  | .binaryOp => readRecord [["op"], ["left"], ["right"]] fun fs =>
    Expr.binary <$> fs.required 0 (readChoice BinaryOp.named) <*> fs.required 1 expr
      <*> fs.required 2 expr
  | .aggregation => fun source j => (readAggregation expr source j).map .aggregate

/-- An expression that was seen in full and nests at most `fuel` containers. -/
def readWhole : Nat → Source → Json → Except Fault Expr
  | 0, _, _ => .error .badShape
  | fuel + 1, source, j =>
    match splitTag j with
    | none => .error .badShape
    | some (tag, body) =>
      match readTag source tag with
      | .error fault => .error fault
      | .ok tag => readTagged (readWhole fuel) tag .nested body

def readExpr : ExprReader := fun source j =>
  match source, scanExpr j with
  | .text, .error fault => .error fault
  | _, _ => readWhole j.depth source j

def readQuantifier : Source → Json → Except Fault Quantifier :=
  readRecord [["index", "index_var"], ["over"], ["condition"]] fun fs =>
    Quantifier.mk <$> fs.required 0 readString <*> fs.required 1 readString
      <*> fs.optional 2 none (readOption (readComparison readExpr))

def readConstraint : Source → Json → Except Fault Constraint :=
  readRecord [["type"], ["name"], ["expr"], ["quantifiers"]] fun fs =>
    (fun () name body quantifiers => Constraint.mk name body quantifiers)
      <$> fs.optional 0 () (readChoice [("constraint", ())])
      <*> fs.required 1 readString <*> fs.required 2 (readComparison readExpr)
      <*> fs.optional 3 none (readOption (readList readQuantifier))

def senses : List (String × Sense) := [("min", .min), ("max", .max)]

def readObjective : Source → Json → Except Fault Objective :=
  readRecord [["name"], ["expr"], ["sense"]] fun fs =>
    Objective.mk <$> fs.required 0 readString <*> fs.required 1 readExpr
      <*> fs.optional 2 .min (readChoice senses)

def writeForm : ComparisonForm → Json
  | .comparison => .string "comparison"
  | .indexComparison => .string "index_comparison"

def writeRange (r : Range) : Json :=
  .object [("type", .string "index_binding"), ("index_var", .string r.index),
    ("set_name", .string r.set)]

def referenceTag : RefKind → String
  | .variable => "variable"
  | .parameter => "parameter"

mutual

def writeExpr : Expr → Json
  | .number n => .object [(tagField, .string "number"), ("value", writeNumber n)]
  | .string s => .object [(tagField, .string "string"), ("value", .string s)]
  | .indexVar name => .object [(tagField, .string "index_variable"), ("name", .string name)]
  | .ref kind name =>
    .object [(tagField, .string (referenceTag kind)), ("name", .string name),
      ("index_expr", .null)]
  | .refAt kind name positions =>
    .object [(tagField, .string (referenceTag kind)), ("name", .string name),
      ("index_expr", .array (writeExprs positions))]
  | .unary op e =>
    .object [(tagField, .string "unary_op"), ("op", .string op.name), ("expr", writeExpr e)]
  | .binary op l r =>
    .object [(tagField, .string "binary_op"), ("op", .string op.name), ("left", writeExpr l),
      ("right", writeExpr r)]
  | .aggregate a => .object ((tagField, .string "aggregation") :: aggregationFields a)

def writeExprs : List Expr → List Json
  | [] => []
  | e :: es => writeExpr e :: writeExprs es

def aggregationFields : Aggregation Expr → List (String × Json)
  | ⟨op, body, ranges, condition⟩ =>
    [("op", .string op.name), ("expr", writeExpr body), ("bindings", writeList writeRange ranges),
      ("condition", writeCondition condition)]

def writeCondition : Option (Comparison Expr) → Json
  | none => .null
  | some c => writeComparison c

def writeComparison : Comparison Expr → Json
  | ⟨form, l, relation, r⟩ =>
    .object [("type", writeForm form), ("left", writeExpr l), ("op", .string relation.name),
      ("right", writeExpr r)]

end

def writeAggregation (a : Aggregation Expr) : Json := .object (aggregationFields a)

def writeQuantifier (q : Quantifier) : Json :=
  .object [("index", .string q.index), ("over", .string q.set),
    ("condition", writeCondition q.condition)]

def writeConstraint (c : Constraint) : Json :=
  .object [("type", .string "constraint"), ("name", .string c.name),
    ("expr", writeComparison c.body),
    ("quantifiers", writeOption (writeList writeQuantifier) c.quantifierList)]

def writeObjective (o : Objective) : Json :=
  .object [("name", .string o.name), ("expr", writeExpr o.expr),
    ("sense", .string o.sense.name)]

end Milp.Document
