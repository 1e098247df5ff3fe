import Milp.Console.Style
import Milp.Decimal.Layout
import Milp.Event

/-! Console lines of a compilation. A record carries whatever fields an event was reported with;
missing ones are shown by a default. Records of other programs, and those that are neither a
known event nor a warning, print nothing. -/
namespace Milp.Console

inductive Level where
  | error
  | warn
  | info
  | debug
  | trace
deriving DecidableEq, Repr

structure Record where
  level : Level
  /-- Whether the compiler itself reports. -/
  own : Bool := true
  event : Option String := none
  message : Option String := none
  model : Option String := none
  constraint : Option String := none
  objective : Option String := none
  sense : Option String := none
  sets : Option Int := none
  parameters : Option Int := none
  vars : Option Int := none
  constraints : Option Int := none
  instances : Option Int := none
  skipped : Option Int := none
  terms : Option Int := none
  milliseconds : Option Int := none

/-- A count in groups of digits. Missing and negative counts are zero. -/
def count (n : Option Int) : String := grouped (n.getD 0).toNat

def duration (milliseconds : Nat) : String :=
  if milliseconds < 1000 then toString milliseconds ++ "ms"
  else if milliseconds < 60000 then
    Decimal.fixed 2 (milliseconds.toUInt64.toFloat / 1000.0) ++ "s"
  else toString (milliseconds / 60000) ++ "m " ++ toString (milliseconds % 60000 / 1000) ++ "s"

namespace Record

def skippedNote (r : Record) (paint : String → String) : String :=
  if 0 < (r.skipped.getD 0) then " │ " ++ paint (count r.skipped) ++ " skipped" else ""

def title (name : Option String) (default : String) : String :=
  bold (Colour.white.paint (name.getD default))

def startedLine (r : Record) : String :=
  let number (n : Option Int) := Colour.brightYellow.paint (count n)
  bold (Colour.brightGreen.paint "▶") ++ " Compiling " ++ title r.model "model" ++ " │ "
    ++ number r.sets ++ " sets │ " ++ number r.parameters ++ " parameters │ "
    ++ number r.vars ++ " variables │ " ++ number r.constraints ++ " constraints"

def expandedLine (r : Record) : String :=
  "  " ++ Colour.brightBlue.paint "·" ++ " " ++ padRight 24 (r.constraint.getD "?") ++ " "
    ++ Colour.brightMagenta.paint (padLeft 12 (count r.instances)) ++ " instances"
    ++ r.skippedNote Colour.brightBlack.paint

def objectiveLine (r : Record) : String :=
  "  " ++ Colour.brightBlue.paint "◆" ++ " " ++ Colour.brightCyan.paint (r.sense.getD "min") ++ " "
    ++ title r.objective "objective" ++ " │ " ++ Colour.brightMagenta.paint (count r.terms)
    ++ " terms"

def endedLine (r : Record) : String :=
  bold (Colour.brightCyan.paint "■") ++ " Compiled " ++ title r.model "model" ++ " │ "
    ++ Colour.brightYellow.paint (count r.instances) ++ " instances │ "
    ++ Colour.yellow.paint (duration (r.milliseconds.getD 0).toNat) ++ r.skippedNote id

def warningLine (r : Record) : String :=
  "  " ++ bold (Colour.brightRed.paint "!") ++ " " ++ Colour.yellow.paint (r.message.getD "")
    ++ match r.constraint with
      | some c => " (" ++ c ++ ")"
      | none => ""

def line? (r : Record) : Option String :=
  if !r.own then none
  else match r.event.getD "" with
    | "compile_start" => some r.startedLine
    | "constraint_expanded" => some r.expandedLine
    | "objective_compiled" => some r.objectiveLine
    | "compile_end" => some r.endedLine
    | _ => if r.level = .warn then some r.warningLine else none

end Record

def unquoted (s : String) : String :=
  let strip (cs : List Char) := cs.dropWhile (· == '"')
  String.ofList (strip (strip s.toList).reverse).reverse

/-- The record of an event. A model's name is reported without quotation marks around it. -/
def ofEvent : Event → Record
  | .started model sets parameters vars constraints =>
    { level := .info, event := some "compile_start", model := some (unquoted model),
      sets := some sets, parameters := some parameters, vars := some vars,
      constraints := some constraints }
  | .expanded constraint instances skipped =>
    { level := .info, event := some "constraint_expanded", constraint := some constraint,
      instances := some instances, skipped := some skipped }
  | .objectiveCompiled objective sense terms =>
    { level := .info, event := some "objective_compiled", objective := some objective,
      sense := some sense.name, terms := some terms }
  | .hostInstance constraint =>
    { level := .warn, message := some "constraint instance references no decision variable",
      constraint := some constraint }
  | .ended model instances skipped =>
    { level := .info, event := some "compile_end", model := some (unquoted model),
      instances := some instances, skipped := some skipped }

def lines (events : List Event) : List String :=
  (events.filterMap fun e => (ofEvent e).line?).flatMap fun l =>
    (l.replace "\r\n" "\n").splitOn "\n"

end Milp.Console
