import Milp.Decimal.Shortest

/-! How the shortest digits of a double are laid out as text. A layout says which values are
written with a plain decimal point and how an exponent looks; the digits are those of
`shortest`. -/
namespace Milp.Decimal

structure Layout where
  /-- Leading digits down to this power of ten are written without an exponent. -/
  lowest : Int
  /-- Leading digits up to this power of ten are written without an exponent. -/
  highest : Int
  /-- Whether a positive exponent carries a sign. -/
  signedExponent : Bool
  tie : Tie
  nan : String
  infinity : String
  negativeInfinity : String

/-- Digits with a point after the first `whole` of them, padded with zeros on either side.
There is a digit on both sides of the point. -/
def pointed (digits : List Char) (whole : Int) : List Char :=
  if whole ≤ 0 then ['0', '.'] ++ List.replicate (-whole).toNat '0' ++ digits
  else
    let n := whole.toNat
    if digits.length ≤ n then digits ++ List.replicate (n - digits.length) '0' ++ ['.', '0']
    else digits.take n ++ ['.'] ++ digits.drop n

def digitChars (n : Nat) : List Char := Nat.toDigits 10 n

def Layout.digits (layout : Layout) (d : Digits) : List Char :=
  let cs := digitChars d.digits
  let leading := d.scale + cs.length - 1
  if layout.lowest ≤ leading ∧ leading ≤ layout.highest then pointed cs (leading + 1)
  else
    let mantissa := match cs with
      | [] => []
      | [c] => [c]
      | c :: rest => c :: '.' :: rest
    let sign := if leading < 0 then ['-'] else if layout.signedExponent then ['+'] else []
    mantissa ++ 'e' :: sign ++ digitChars leading.natAbs

def Layout.text (layout : Layout) (x : Float) : String :=
  match Dyadic.ofFloat? x with
  | none =>
    if x.isNaN then layout.nan else if 0 < x then layout.infinity else layout.negativeInfinity
  | some d =>
    let sign := if d.negative then ['-'] else []
    if d.significand = 0 then String.ofList (sign ++ ['0', '.', '0'])
    else String.ofList (sign ++ layout.digits (shortest layout.tie d))

/-- The notation of displayed values: integral doubles keep `.0`, an exponent appears from
`1e16` on and below `1e-4`, and carries no plus sign. -/
def display : Layout := ⟨-4, 15, false, .up, "NaN", "inf", "-inf"⟩

/-- The notation of documents: an exponent appears from `1e+16` on and below `1e-5`. Values
that are no finite number are `null`. -/
def document : Layout := ⟨-5, 15, true, .even, "null", "null", "null"⟩

/-- The quotient of two natural numbers rounded to nearest, ties to even. -/
def roundDiv (num den : Nat) : Nat :=
  let q := num / den
  let twice := 2 * (num % den)
  if twice < den then q
  else if den < twice then q + 1
  else if q % 2 = 0 then q else q + 1

/-- A nonnegative double with a given number of places after the point, its exact value
rounded to nearest and ties to even. -/
def fixed (places : Nat) (x : Float) : String :=
  match Dyadic.ofFloat? x with
  | none => display.text x
  | some d =>
    let scaled :=
      roundDiv (d.significand * Nat.pow 10 places * Nat.pow 2 d.exponent.toNat)
        (Nat.pow 2 (-d.exponent).toNat)
    let cs := digitChars scaled
    let padded := List.replicate (places + 1 - cs.length) '0' ++ cs
    let whole := padded.length - places
    String.ofList (if places = 0 then padded else padded.take whole ++ '.' :: padded.drop whole)

end Milp.Decimal
