import Milp.Declaration.IndexSet
import Milp.Declaration.Parameter
import Milp.Declaration.Variable
import Milp.Document.Atoms

/-! Sets, parameters and variables as documents. A parameter is refused when its entries do not
fit its index sets or repeat a tuple. -/
namespace Milp.Document

def readSet : Source → Json → Except Fault IndexSet :=
  readRecord [["name"], ["elements"]] fun fs =>
    IndexSet.mk <$> fs.required 0 readString <*> fs.required 1 (readList readElement)

def writeSet (s : IndexSet) : Json :=
  .object [("name", .string s.name), ("elements", writeList writeElement s.elements)]

def readEntry : Source → Json → Except Fault Entry :=
  readRecord [["index"], ["value"]] fun fs =>
    Entry.mk <$> fs.required 0 (readList readElement) <*> fs.required 1 readFloat

def writeEntry (e : Entry) : Json :=
  .object [("index", writeList writeElement e.index), ("value", writeFloat e.value)]

def readValues (_ : Source) (j : Json) : Except Fault ParameterValues :=
  if !j.whole then .error .notJson
  else match readNumber .nested j with
    | .ok n => .ok (.scalar n)
    | .error _ => (readList readEntry .nested j).map .listed

def writeValues : ParameterValues → Json
  | .scalar n => writeNumber n
  | .listed entries => writeList writeEntry entries

/-- The fields of a parameter, whose entries are not checked yet. -/
def readUnchecked : Source → Json → Except Fault (String × List String × ParameterValues) :=
  readRecord [["name"], ["indices"], ["values"]] fun fs =>
    (fun name indices values => (name, indices, values)) <$> fs.required 0 readString
      <*> fs.optional 1 [] (readList readString) <*> fs.required 2 readValues

def readParameter (source : Source) (j : Json) : Except Fault Parameter :=
  match readUnchecked source j with
  | .error fault => .error fault
  | .ok (name, indices, values) =>
    match Parameter.make name indices values with
    | .error cause => .error (.rejected cause)
    | .ok p => .ok p

def writeParameter (p : Parameter) : Json :=
  .object [("name", .string p.name), ("indices", writeList .string p.indices),
    ("values", writeValues p.values)]

def domains : List (String × Domain) := Domain.all.map fun d => (d.name, d)

def readVariable : Source → Json → Except Fault Variable :=
  readRecord [["name"], ["indices"], ["domain"], ["lb"], ["ub"]] fun fs =>
    Variable.mk <$> fs.required 0 readString <*> fs.optional 1 [] (readList readString)
      <*> fs.optional 2 .nonnegativeReal (readChoice domains)
      <*> fs.optional 3 none (readOption readFloat) <*> fs.optional 4 none (readOption readFloat)

def writeVariable (v : Variable) : Json :=
  .object [("name", .string v.name), ("indices", writeList .string v.indices),
    ("domain", .string v.domain.name), ("lb", writeOption writeFloat v.lower),
    ("ub", writeOption writeFloat v.upper)]

end Milp.Document
