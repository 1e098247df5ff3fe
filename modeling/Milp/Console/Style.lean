/-! Terminal text: colours, weight, columns and grouped digits. -/
namespace Milp.Console

inductive Colour where
  | yellow
  | white
  | brightBlack
  | brightRed
  | brightGreen
  | brightYellow
  | brightBlue
  | brightMagenta
  | brightCyan
  | brightWhite
deriving DecidableEq, Repr

def Colour.code : Colour → Nat
  | yellow => 33
  | white => 37
  | brightBlack => 90
  | brightRed => 91
  | brightGreen => 92
  | brightYellow => 93
  | brightBlue => 94
  | brightMagenta => 95
  | brightCyan => 96
  | brightWhite => 97

def rendition (n : Nat) : String := "\x1b[" ++ toString n ++ "m"

def Colour.paint (c : Colour) (s : String) : String := rendition c.code ++ s ++ rendition 39

def bold (s : String) : String := rendition 1 ++ s ++ rendition 0

def padRight (width : Nat) (s : String) : String :=
  s ++ String.ofList (List.replicate (width - s.length) ' ')

def padLeft (width : Nat) (s : String) : String :=
  String.ofList (List.replicate (width - s.length) ' ') ++ s

def groupReversed : List Char → List Char
  | a :: b :: c :: d :: rest => a :: b :: c :: ',' :: groupReversed (d :: rest)
  | cs => cs

def grouped (n : Nat) : String :=
  String.ofList (groupReversed (toString n).toList.reverse).reverse

end Milp.Console
