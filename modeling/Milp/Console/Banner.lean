import Milp.Console.Style

/-! The banner that introduces the console output. -/
namespace Milp.Console

def version : String := "0.3.0"

def titleLines : List String :=
  [" __  __  ___    _    ___",
    "|  \\/  |/ _ \\  / \\  |_ _|",
    "| |\\/| | | | |/ _ \\  | |",
    "| |  | | |_| / ___ \\ | |",
    "|_|  |_|\\___/_/   \\_\\___|"]

def banner : String :=
  Colour.brightCyan.paint (String.join ("\n" :: titleLines.map (· ++ "\n"))) ++ "\n"
    ++ bold (Colour.brightWhite.paint ("   v" ++ version ++ " - MILP model compiler\n")) ++ "\n"

end Milp.Console
