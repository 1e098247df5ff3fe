import Milp.Decimal.Layout
import Milp.Json.Basic

/-! Writing of JSON values, on one line without spaces or over indented lines. Strings escape
only what they must, and floats follow the notation of documents. -/
namespace Milp.Json

def hexDigit (n : Nat) : Char := Nat.digitChar n

def escape (c : Char) : List Char :=
  match c with
  | '"' => ['\\', '"']
  | '\\' => ['\\', '\\']
  | '\x08' => ['\\', 'b']
  | '\x0c' => ['\\', 'f']
  | '\n' => ['\\', 'n']
  | '\r' => ['\\', 'r']
  | '\t' => ['\\', 't']
  | c =>
    if c.toNat < 0x20 then ['\\', 'u', '0', '0', hexDigit (c.toNat / 16), hexDigit (c.toNat % 16)]
    else [c]

def quote (s : String) : String := String.ofList ('"' :: s.toList.flatMap escape ++ ['"'])

def scalarText : Json → String
  | null => "null"
  | bool true => "true"
  | bool false => "false"
  | int n => toString n
  | float x => Decimal.document.text x
  | string s => quote s
  | _ => "null"

mutual

def compact : Json → String
  | array items _ => "[" ++ ",".intercalate (compactItems items) ++ "]"
  | object fields _ => "\x7b" ++ ",".intercalate (compactFields fields) ++ "\x7d"
  | j => scalarText j

def compactItems : List Json → List String
  | [] => []
  | j :: js => j.compact :: compactItems js

def compactFields : List (String × Json) → List String
  | [] => []
  | (name, j) :: fs => (quote name ++ ":" ++ j.compact) :: compactFields fs

end

def lineBreak (level : Nat) : String := String.ofList ('\n' :: List.replicate (2 * level) ' ')

/-- Lines between brackets; nothing is between the brackets of an empty container. -/
def block (opening closing : String) (level : Nat) (entries : List String) : String :=
  if entries.isEmpty then opening ++ closing
  else
    opening ++ lineBreak (level + 1) ++ ("," ++ lineBreak (level + 1)).intercalate entries
      ++ lineBreak level ++ closing

mutual

def prettyAt (level : Nat) : Json → String
  | array items _ => block "[" "]" level (prettyItems (level + 1) items)
  | object fields _ => block "\x7b" "\x7d" level (prettyFields (level + 1) fields)
  | j => scalarText j

def prettyItems (level : Nat) : List Json → List String
  | [] => []
  | j :: js => j.prettyAt level :: prettyItems level js

def prettyFields (level : Nat) : List (String × Json) → List String
  | [] => []
  | (name, j) :: fs => (quote name ++ ": " ++ j.prettyAt level) :: prettyFields level fs

end

def pretty (j : Json) : String := j.prettyAt 0

end Milp.Json
