/-! TOML dates and times. They are checked but not kept. -/
namespace Milp.Toml

def digit? (c : Char) : Option Nat := if c.isDigit then some (c.toNat - '0'.toNat) else none

def afterDigits? (width least most : Nat) (cs : List Char) : Option (Nat × List Char) := do
  let ns ← (cs.take width).mapM digit?
  let n := ns.foldl (fun m d => 10 * m + d) 0
  if ns.length = width ∧ least ≤ n ∧ n ≤ most then some (n, cs.drop width) else none

def after? (c : Char) : List Char → Option (List Char)
  | [] => none
  | d :: rest => if d = c then some rest else none

def daysIn (year month : Nat) : Nat :=
  if month = 2 then
    if year % 4 = 0 ∧ (year % 100 ≠ 0 ∨ year % 400 = 0) then 29 else 28
  else if month = 4 ∨ month = 6 ∨ month = 9 ∨ month = 11 then 30
  else 31

def afterDate? (cs : List Char) : Option (List Char) := do
  let (year, rest) ← afterDigits? 4 0 9999 cs
  let (month, rest) ← afterDigits? 2 1 12 (← after? '-' rest)
  let (_, rest) ← afterDigits? 2 1 (daysIn year month) (← after? '-' rest)
  return rest

/-- What follows a time of day. A minute may have a leap second. -/
def afterTime? (cs : List Char) : Option (List Char) := do
  let (_, rest) ← afterDigits? 2 0 23 cs
  let (_, rest) ← afterDigits? 2 0 59 (← after? ':' rest)
  let (_, rest) ← afterDigits? 2 0 60 (← after? ':' rest)
  match rest with
  | '.' :: more =>
    if more.head?.any Char.isDigit then return more.dropWhile Char.isDigit else return rest
  | rest => return rest

def afterOffset? : List Char → Option (List Char)
  | [] => none
  | c :: rest =>
    if c = 'Z' ∨ c = 'z' then some rest
    else if c = '+' ∨ c = '-' then do
      let (_, rest) ← afterDigits? 2 0 23 rest
      let (_, rest) ← afterDigits? 2 0 59 (← after? ':' rest)
      return rest
    else none

def afterMoment? (cs : List Char) : Option (List Char) :=
  match afterDate? cs with
  | none => afterTime? cs
  | some (c :: rest) =>
    if c = 'T' ∨ c = 't' ∨ c = ' ' then
      match afterTime? rest with
      | some rest => some ((afterOffset? rest).getD rest)
      | none => some (c :: rest)
    else some (c :: rest)
  | some [] => some []

end Milp.Toml
