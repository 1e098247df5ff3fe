import Milp.Document.Declaration
import Milp.Document.Expression
import Milp.Json.Writer
import Milp.Model.Data

/-! Whole models as documents. -/
namespace Milp.Document

def readModel : Source → Json → Except Fault ModelData :=
  readRecord [["name"], ["sets"], ["parameters"], ["variables"], ["constraints"], ["objective"]]
    fun fs =>
      ModelData.mk <$> fs.required 0 readString <*> fs.optional 1 [] (readList readSet)
        <*> fs.optional 2 [] (readList readParameter) <*> fs.optional 3 [] (readList readVariable)
        <*> fs.optional 4 [] (readList readConstraint)
        <*> fs.optional 5 none (readOption readObjective)

def writeModel (d : ModelData) : Json :=
  .object [("name", .string d.name), ("sets", writeList writeSet d.sets),
    ("parameters", writeList writeParameter d.parameters),
    ("variables", writeList writeVariable d.vars),
    ("constraints", writeList writeConstraint d.constraints),
    ("objective", writeOption writeObjective d.objective)]

def modelText (d : ModelData) : String := (writeModel d).pretty

end Milp.Document
