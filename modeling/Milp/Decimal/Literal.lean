import Milp.Dyadic

/-! Decimal literals: an optional minus sign, digits, an optional fraction and an optional
exponent. A literal has two readings as a double: the nearest one, and the one that documents
use, which keeps 64 bits of significand and scales it in double arithmetic. A number given as a
text by itself may be written more freely than a literal. -/
namespace Milp.Decimal

structure Literal where
  negative : Bool
  whole : List Char
  fraction : Option (List Char)
  exponent : Option (Bool × List Char)

def isDigit (c : Char) : Bool := '0' ≤ c && c ≤ '9'

def digitValue (c : Char) : Nat := c.toNat - '0'.toNat

def natOfDigits (cs : List Char) : Nat := cs.foldl (fun n c => 10 * n + digitValue c) 0

def spanDigits : List Char → List Char × List Char
  | [] => ([], [])
  | c :: cs =>
    if isDigit c then
      let (ds, rest) := spanDigits cs
      (c :: ds, rest)
    else ([], c :: cs)

/-- The exponent part of a literal, `none` inside when there is none, and what follows. Fails
on an exponent mark without digits. -/
def scanExponent (cs : List Char) : Option (Option (Bool × List Char) × List Char) :=
  match cs with
  | c :: rest =>
    if c = 'e' ∨ c = 'E' then
      let (negative, rest) := match rest with
        | '-' :: rest => (true, rest)
        | '+' :: rest => (false, rest)
        | rest => (false, rest)
      match spanDigits rest with
      | ([], _) => none
      | (ds, rest) => some (some (negative, ds), rest)
    else some (none, cs)
  | [] => some (none, [])

/-- The fraction of a literal and what follows. Fails on a point without digits. -/
def scanFraction (cs : List Char) : Option (Option (List Char) × List Char) :=
  match cs with
  | '.' :: rest =>
    match spanDigits rest with
    | ([], _) => none
    | (ds, rest) => some (some ds, rest)
  | rest => some (none, rest)

/-- A literal at the head of a text, and what follows it. The whole part has no leading zero
unless it is `0`. -/
def Literal.scan (cs : List Char) : Option (Literal × List Char) :=
  let (negative, cs) := match cs with
    | '-' :: rest => (true, rest)
    | cs => (false, cs)
  match spanDigits cs with
  | ([], _) => none
  | ('0' :: _ :: _, _) => none
  | (whole, rest) =>
    match scanFraction rest with
    | none => none
    | some (fraction, rest) =>
      match scanExponent rest with
      | none => none
      | some (exponent, rest) => some (⟨negative, whole, fraction, exponent⟩, rest)

/-- Appends digits to a significand up to the first that does not fit into 64 bits; says how
many were taken. -/
def takeDigits : Nat → List Char → Nat × Nat
  | value, [] => (value, 0)
  | value, c :: cs =>
    let longer := 10 * value + digitValue c
    if longer < Nat.pow 2 64 then
      let (value, n) := takeDigits longer cs
      (value, n + 1)
    else (value, 0)

def powerOfTen (n : Nat) : Float := Float.ofScientific 1 false n

/-- `x * 10 ^ exponent` by double arithmetic: one multiplication or division, after divisions
by `1e308` while the exponent is lower than any power of ten. `none` if the result is too
large. -/
def scale (x : Float) (exponent : Int) : Nat → Option Float
  | 0 => some x
  | fuel + 1 =>
    if exponent.natAbs ≤ 308 then
      if 0 ≤ exponent then
        let y := x * powerOfTen exponent.toNat
        if y.isInf then none else some y
      else some (x / powerOfTen exponent.natAbs)
    else if x == 0.0 then some x
    else if 0 ≤ exponent then none
    else scale (x / 1e308) (exponent + 308) fuel

def Literal.power (l : Literal) : Int :=
  match l.exponent with
  | none => 0
  | some (negative, ds) =>
    let n := min (natOfDigits ds) (Nat.pow 2 31 - 1)
    if negative then -(n : Int) else n

/-- The reading that documents use: the digits that fit into 64 bits, scaled in double
arithmetic. `none` if the value is too large for a double. -/
def Literal.scaled (l : Literal) : Option Float :=
  let (value, taken) := takeDigits 0 l.whole
  let dropped := l.whole.length - taken
  let (value, places) := takeDigits value (l.fraction.getD [])
  let exponent := (dropped : Int) - places + l.power
  let magnitude :=
    if l.power.natAbs = Nat.pow 2 31 - 1 ∧ (value = 0 ∨ l.power < 0) then some 0.0
    else scale value.toUInt64.toFloat exponent 8
  magnitude.map fun x => if l.negative then -x else x

/-- The nearest double, ties to even; too large values are infinite. -/
def Literal.nearest (l : Literal) : Float :=
  let fraction := l.fraction.getD []
  let digits := natOfDigits (l.whole ++ fraction)
  let exponent := l.power - fraction.length
  let length := (l.whole.length + fraction.length : Int)
  let magnitude :=
    if digits = 0 ∨ exponent + length < -400 then 0.0
    else if 400 < exponent then 1.0 / 0.0
    else Float.ofScientific digits (exponent < 0) exponent.natAbs
  if l.negative then -magnitude else magnitude

/-- The double that a text without a sign stands for: a word for infinity or NaN, or digits with
an optional exponent and a point before, among or after them. -/
def readMagnitude? (cs : List Char) : Option Float :=
  match String.ofList (cs.map Char.toLower) with
  | "inf" => some (1.0 / 0.0)
  | "infinity" => some (1.0 / 0.0)
  | "nan" => some (0.0 / 0.0)
  | _ =>
    let (whole, rest) := spanDigits cs
    let (fraction, rest) := match rest with
      | '.' :: rest => spanDigits rest
      | rest => ([], rest)
    if whole.isEmpty && fraction.isEmpty then none
    else match scanExponent rest with
      | some (exponent, []) => some (Literal.nearest ⟨false, whole, some fraction, exponent⟩)
      | _ => none

def read? (s : String) : Option Float :=
  match s.toList with
  | '-' :: cs => (readMagnitude? cs).map fun x => -x
  | '+' :: cs => readMagnitude? cs
  | cs => readMagnitude? cs

end Milp.Decimal
