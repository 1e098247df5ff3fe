import Milp.Escape

/-! The characters of TOML texts, and TOML strings on one line and over several. -/
namespace Milp.Toml

def isBlank (c : Char) : Bool := c == ' ' || c == '\t'

def dropBlanks : List Char → List Char := List.dropWhile isBlank

def isTextChar (c : Char) : Bool := c == '\t' || (0x20 ≤ c.toNat && c.toNat != 0x7F)

def afterBreak? : List Char → Option (List Char)
  | '\n' :: rest => some rest
  | '\r' :: '\n' :: rest => some rest
  | _ => none

/-- What follows the end of a line at the head of a text: blanks, a comment, and a line break or
the end of the text. -/
def afterLine? (cs : List Char) : Option (List Char) :=
  let rest := match dropBlanks cs with
    | '#' :: comment => comment.dropWhile isTextChar
    | rest => rest
  if rest.isEmpty then some [] else afterBreak? rest

def dropFiller (comment : Bool) : List Char → List Char
  | [] => []
  | '\n' :: rest => dropFiller false rest
  | '\r' :: '\n' :: rest => dropFiller false rest
  | c :: rest =>
    if comment then if isTextChar c then dropFiller true rest else c :: rest
    else if isBlank c then dropFiller false rest
    else if c = '#' then dropFiller true rest
    else c :: rest

def escape? : List Char → Option (Char × Nat)
  | 'u' :: digits => (spelled? 4 digits).map (·, 5)
  | 'U' :: digits => (spelled? 8 digits).map (·, 9)
  | '/' :: _ => none
  | c :: _ => (Json.escaped? c).map (·, 1)
  | [] => none

/-- The rest of a string in double quotes, and what follows it. The first `skip` characters
belong to an escape. -/
def scanBasic : Nat → List Char → Option (List Char × List Char)
  | _, [] => none
  | skip + 1, _ :: rest => scanBasic skip rest
  | 0, c :: rest =>
    if c = '"' then some ([], rest)
    else if c = '\\' then do
      let (x, n) ← escape? rest
      let (cs, rest) ← scanBasic n rest
      return (x :: cs, rest)
    else if isTextChar c then do
      let (cs, rest) ← scanBasic 0 rest
      return (c :: cs, rest)
    else none

def scanRaw : List Char → Option (List Char × List Char)
  | [] => none
  | c :: rest =>
    if c = '\'' then some ([], rest)
    else if isTextChar c then do
      let (cs, rest) ← scanRaw rest
      return (c :: cs, rest)
    else none

/-- The one or two quotes that a string over several lines may end with before its closing
quotes, and what follows. -/
def lastQuotes (quote : Char) : List Char → List Char × List Char
  | a :: b :: rest =>
    if a = quote then if b = quote then ([a, b], rest) else ([a], b :: rest)
    else ([], a :: b :: rest)
  | [a] => if a = quote then ([a], []) else ([], [a])
  | [] => ([], [])

def opensLong (quote : Char) : List Char → Bool
  | a :: b :: c :: _ => a == quote && b == quote && c == quote
  | _ => false

/-- The rest of a string over several lines, and what follows it. With escapes, a backslash at
the end of a line drops everything up to the next word. -/
def scanLong (quote : Char) (escapes : Bool) : Nat → Bool → List Char →
    Option (List Char × List Char)
  | _, _, [] => none
  | skip + 1, trim, _ :: rest => scanLong quote escapes skip trim rest
  | 0, trim, c :: rest =>
    if c = '\n' ∨ (c = '\r' ∧ rest.head? = some '\n') then
      if trim ∨ c = '\r' then scanLong quote escapes 0 trim rest
      else do
        let (cs, rest) ← scanLong quote escapes 0 false rest
        return ('\n' :: cs, rest)
    else if trim ∧ isBlank c then scanLong quote escapes 0 true rest
    else if opensLong quote (c :: rest) then some (lastQuotes quote (rest.drop 2))
    else if escapes ∧ c = '\\' then
      if (afterBreak? (dropBlanks rest)).isSome then scanLong quote escapes 0 true rest
      else do
        let (x, n) ← escape? rest
        let (cs, rest) ← scanLong quote escapes n false rest
        return (x :: cs, rest)
    else if isTextChar c then do
      let (cs, rest) ← scanLong quote escapes 0 false rest
      return (c :: cs, rest)
    else none

/-- A string at the head of a text, and what follows it. A line break right after the opening
quotes of a string over several lines does not count. -/
def scanString (cs : List Char) : Option (List Char × List Char) :=
  let long (quote : Char) (escapes : Bool) :=
    let body := cs.drop 3
    scanLong quote escapes 0 false ((afterBreak? body).getD body)
  match cs with
  | '"' :: rest => if opensLong '"' cs then long '"' true else scanBasic 0 rest
  | '\'' :: rest => if opensLong '\'' cs then long '\'' false else scanRaw rest
  | _ => none

end Milp.Toml
