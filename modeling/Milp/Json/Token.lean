import Milp.Decimal.Literal
import Milp.Json.Basic

/-! The tokens of JSON texts: punctuation and literals. The list of tokens of a text ends with
`bad` at the first place where no token can be read. -/
namespace Milp.Json

inductive Token where
  | openArray
  | closeArray
  | openObject
  | closeObject
  | comma
  | colon
  /-- A null, boolean, number or string. -/
  | literal (value : Json)
  | bad

def hexValue? (c : Char) : Option Nat :=
  if '0' ≤ c ∧ c ≤ '9' then some (c.toNat - '0'.toNat)
  else if 'a' ≤ c ∧ c ≤ 'f' then some (c.toNat - 'a'.toNat + 10)
  else if 'A' ≤ c ∧ c ≤ 'F' then some (c.toNat - 'A'.toNat + 10)
  else none

def unit? (a b c d : Char) : Option Nat := do
  return (((← hexValue? a) * 16 + (← hexValue? b)) * 16 + (← hexValue? c)) * 16 + (← hexValue? d)

def escaped? : Char → Option Char
  | '"' => some '"'
  | '\\' => some '\\'
  | '/' => some '/'
  | 'b' => some '\x08'
  | 'f' => some '\x0c'
  | 'n' => some '\n'
  | 'r' => some '\r'
  | 't' => some '\t'
  | _ => none

/-- The characters of a string up to its closing quote, and what follows. Control characters
must be escaped, and code units above the basic plane come in pairs. -/
def scanString : List Char → Option (List Char × List Char)
  | '"' :: rest => some ([], rest)
  | '\\' :: 'u' :: a :: b :: c :: d :: rest => do
    let u ← unit? a b c d
    if 0xDC00 ≤ u ∧ u < 0xE000 then none
    else if 0xD800 ≤ u ∧ u < 0xDC00 then
      match rest with
      | '\\' :: 'u' :: e :: f :: g :: h :: rest =>
        let v ← unit? e f g h
        if 0xDC00 ≤ v ∧ v < 0xE000 then
          let (cs, rest) ← scanString rest
          return (Char.ofNat (0x10000 + (u - 0xD800) * 0x400 + (v - 0xDC00)) :: cs, rest)
        else none
      | _ => none
    else
      let (cs, rest) ← scanString rest
      return (Char.ofNat u :: cs, rest)
  | '\\' :: c :: rest => do
    let x ← escaped? c
    let (cs, rest) ← scanString rest
    return (x :: cs, rest)
  | c :: rest =>
    if c.toNat < 0x20 ∨ c = '\\' then none
    else do
      let (cs, rest) ← scanString rest
      return (c :: cs, rest)
  | [] => none

/-- A number of a document: an integer where it is written as one and fits, else a float. There
is none for a magnitude beyond doubles. The integer `-0` is the float `-0.0`. -/
def ofLiteral (l : Decimal.Literal) : Option Json :=
  let n := Decimal.natOfDigits l.whole
  match l.fraction, l.exponent with
  | none, none =>
    if l.negative then
      if 0 < n ∧ n ≤ Nat.pow 2 63 then some (.int (-(n : Int))) else l.scaled.map .float
    else if n < Nat.pow 2 64 then some (.int n)
    else l.scaled.map .float
  | _, _ => l.scaled.map .float

def dropWord : List Char → List Char → Option (List Char)
  | [], rest => some rest
  | _, [] => none
  | w :: ws, c :: cs => if w = c then dropWord ws cs else none

def scanLiteral (cs : List Char) : Option (Json × List Char) :=
  match cs with
  | '"' :: rest => (scanString rest).map fun (s, rest) => (.string (String.ofList s), rest)
  | 'n' :: rest => (dropWord ['u', 'l', 'l'] rest).map fun rest => (.null, rest)
  | 't' :: rest => (dropWord ['r', 'u', 'e'] rest).map fun rest => (.bool true, rest)
  | 'f' :: rest => (dropWord ['a', 'l', 's', 'e'] rest).map fun rest => (.bool false, rest)
  | cs => do
    let (l, rest) ← Decimal.Literal.scan cs
    let j ← ofLiteral l
    return (j, rest)

def punctuation? : Char → Option Token
  | '[' => some .openArray
  | ']' => some .closeArray
  | '\x7b' => some .openObject
  | '\x7d' => some .closeObject
  | ',' => some .comma
  | ':' => some .colon
  | _ => none

def isSpace (c : Char) : Bool := c == ' ' || c == '\n' || c == '\t' || c == '\r'

def tokensFuel : Nat → List Char → List Token
  | 0, _ => []
  | _ + 1, [] => []
  | fuel + 1, c :: cs =>
    if isSpace c then tokensFuel fuel cs
    else match punctuation? c with
      | some t => t :: tokensFuel fuel cs
      | none =>
        match scanLiteral (c :: cs) with
        | some (j, rest) => .literal j :: tokensFuel fuel rest
        | none => [.bad]

def tokens (text : String) : List Token :=
  let cs := text.toList
  tokensFuel cs.length cs

end Milp.Json
