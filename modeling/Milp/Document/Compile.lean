import Milp.Document.Model
import Milp.Model.Compile

/-! Compilation of model documents. A text is read and its declarations are checked before a
target receives anything. -/
namespace Milp.Document

inductive Failure where
  /-- The text is no model document. -/
  | unreadable (fault : Fault)
  /-- The model that it describes was refused, or its compilation failed. -/
  | refused (cause : Error)
deriving DecidableEq

structure Compilation (σ : Type) where
  result : Except Failure Report
  state : σ

def modelOfText (text : String) : Except Failure Model :=
  match ofText readModel text with
  | .error fault => .error (.unreadable fault)
  | .ok data => (Model.ofData data).mapError .refused

def compileText {σ V : Type} (text : String) (t : Target σ V) (config : Config) (s : σ) :
    Compilation σ :=
  match modelOfText text with
  | .error failure => ⟨.error failure, s⟩
  | .ok m =>
    let outcome := m.compile t config s
    ⟨outcome.result.mapError .refused, outcome.state⟩

end Milp.Document
