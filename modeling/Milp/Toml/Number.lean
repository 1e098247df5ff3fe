import Milp.Decimal.Literal
import Milp.Toml.Table
import Milp.Toml.Text

/-! TOML numbers and truth values. Underscores may stand between digits. -/
namespace Milp.Toml

def plainDigits (isDigit : Char → Bool) : List Char → Option (List Char)
  | [] => none
  | [c] => if isDigit c then some [c] else none
  | c :: '_' :: rest => if isDigit c then (plainDigits isDigit rest).map (c :: ·) else none
  | c :: rest => if isDigit c then (plainDigits isDigit rest).map (c :: ·) else none

def splitSign : List Char → Bool × List Char
  | '-' :: rest => (true, rest)
  | '+' :: rest => (false, rest)
  | rest => (false, rest)

def inBase? (base : Nat) (cs : List Char) : Option Nat := do
  let isDigit c := match Json.hexValue? c with
    | some n => n < base
    | none => false
  let ds ← plainDigits isDigit cs
  let ns ← ds.mapM Json.hexValue?
  return ns.foldl (fun n d => base * n + d) 0

def integer? (word : List Char) : Option Int64 :=
  match word with
  | '0' :: 'x' :: ds => (inBase? 16 ds).bind fun n => int64? n
  | '0' :: 'o' :: ds => (inBase? 8 ds).bind fun n => int64? n
  | '0' :: 'b' :: ds => (inBase? 2 ds).bind fun n => int64? n
  | word =>
    match splitSign word with
    | (_, '0' :: _ :: _) => none
    | (negative, ds) => (inBase? 10 ds).bind fun n => int64? (if negative then -n else n)

/-- A float: one of the special names, or a literal with a fraction or an exponent. A literal may
be too large for a double only if it is negative. -/
def float? (word : List Char) : Option Float :=
  let (negative, rest) := splitSign word
  let signed (x : Float) := if negative then -x else x
  if rest = ['i', 'n', 'f'] then some (signed (1.0 / 0.0))
  else if rest = ['n', 'a', 'n'] then some (signed (0.0 / 0.0))
  else
    let isPart (c : Char) := Decimal.isDigit c || c == '_'
    let afterDigit := (rest.zip ('_' :: rest)).all fun (c, before) =>
      c != '_' || Decimal.isDigit before
    let beforeDigit := (rest.zip (rest.drop 1 ++ ['_'])).all fun (c, after) =>
      c != '_' || Decimal.isDigit after
    if rest.head?.any isPart && afterDigit && beforeDigit then
      match Decimal.Literal.scan (rest.filter (· != '_')) with
      | some (l, []) =>
        if l.fraction.isSome || l.exponent.isSome then
          let x := signed l.nearest
          if x == 1.0 / 0.0 then none else some x
        else none
      | _ => none
    else none

def word? (word : List Char) : Option Toml :=
  if word = "true".toList then some (boolean true)
  else if word = "false".toList then some (boolean false)
  else match integer? word with
    | some v => some (integer v)
    | none => (float? word).map float

end Milp.Toml
