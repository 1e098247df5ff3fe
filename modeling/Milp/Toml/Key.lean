import Milp.Toml.Text

/-! TOML keys: parts between dots, each a word or a string on one line. -/
namespace Milp.Toml

def isKeyChar (c : Char) : Bool := c.isAlphanum || c == '_' || c == '-'

def scanKeyPart (cs : List Char) : Option (String × List Char) :=
  match cs with
  | '"' :: rest => (scanBasic 0 rest).map fun (s, rest) => (String.ofList s, rest)
  | '\'' :: rest => (scanRaw rest).map fun (s, rest) => (String.ofList s, rest)
  | cs =>
    match cs.takeWhile isKeyChar with
    | [] => none
    | key => some (String.ofList key, cs.dropWhile isKeyChar)

def scanKeyFuel : Nat → List Char → Option (List String × List Char)
  | 0, _ => none
  | fuel + 1, cs => do
    let (part, rest) ← scanKeyPart (dropBlanks cs)
    match dropBlanks rest with
    | '.' :: rest =>
      let (parts, rest) ← scanKeyFuel fuel rest
      return (part :: parts, rest)
    | rest => return ([part], rest)

def scanKey (cs : List Char) : Option (List String × List Char) :=
  scanKeyFuel (cs.length + 1) cs

end Milp.Toml
