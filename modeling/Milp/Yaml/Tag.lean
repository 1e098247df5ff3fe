import Milp.Json.Token
import Milp.Yaml.Cell

/-! Names of anchors, tags and directives. A tag is written in full, or as a suffix after a
handle that stands for the beginning. -/
namespace Milp.Yaml

def isNameChar (c : Char) : Bool := c.isAlphanum || c == '_' || c == '-'

def takeChars (p : Char → Bool) (cs : List Cell) : List Char × List Cell :=
  let word := (cs.takeWhile fun c => p c.char).map Cell.char
  (word, cs.drop word.length)

def scanAnchor (cs : List Cell) : Option (String × List Cell) :=
  match takeChars isNameChar cs with
  | ([], _) => none
  | (name, rest) =>
    if endsAt (fun c => isGap c || "?:,]\x7d%@`".toList.contains c) rest then
      some (String.ofList name, rest)
    else none

/-- Whether a character may stand in a tag. Between angle brackets there are more of them. -/
def isTagChar (bracketed : Bool) (c : Char) : Bool :=
  isNameChar c || ";/?:@&=+$.%!~*'()".toList.contains c
    || (bracketed && ",[]".toList.contains c)

def unescapedBytes : List Char → Option (List UInt8)
  | [] => some []
  | '%' :: a :: b :: cs => do
    let n := (← Json.hexValue? a) * 16 + (← Json.hexValue? b)
    return n.toUInt8 :: (← unescapedBytes cs)
  | c :: cs => if c == '%' then none else return c.toNat.toUInt8 :: (← unescapedBytes cs)

def unescaped? (cs : List Char) : Option String := do
  String.fromUTF8? ⟨(← unescapedBytes cs).toArray⟩

/-- The characters of a handle, and what follows it: an exclamation mark, and a name that another
one may end. -/
def scanHandle (cs : List Cell) : Option (List Char × List Cell) :=
  if startsAt (· == '!') cs then
    let (name, rest) := takeChars isNameChar (cs.drop 1)
    if startsAt (· == '!') rest then some ('!' :: name ++ ['!'], rest.drop 1)
    else some ('!' :: name, rest)
  else none

def isClosedHandle (handle : List Char) : Bool :=
  2 ≤ handle.length && handle.getLast? == some '!'

/-- A tag as a handle and a suffix, and what follows it. A tag in angle brackets, and one that is
only an exclamation mark, have an empty handle. -/
def scanTag (flow : Bool) (cs : List Cell) : Option ((String × String) × List Cell) := do
  let ((handle, suffix), rest) ←
    if startsAt (· == '<') (cs.drop 1) then
      let (uri, rest) := takeChars (isTagChar true) (cs.drop 2)
      if !uri.isEmpty && startsAt (· == '>') rest then
        some (("", ← unescaped? uri), rest.drop 1)
      else none
    else
      let (handle, rest) ← scanHandle cs
      let (uri, rest) := takeChars (isTagChar false) rest
      let uri ← unescaped? uri
      if isClosedHandle handle then
        if uri.isEmpty then none else some ((String.ofList handle, uri), rest)
      else
        let suffix := String.ofList (handle.drop 1) ++ uri
        some (if suffix.isEmpty then ("", "!") else ("!", suffix), rest)
  if endsAt isGap rest || (flow && startsAt (· == ',') rest) then
    return ((handle, suffix), rest)
  else none

inductive Directive where
  | version (major minor : Nat)
  /-- A handle, and what it stands for. -/
  | handle (name : String) (start : String)
deriving DecidableEq

def scanNumber (cs : List Cell) : Option (Nat × List Cell) :=
  let (digits, rest) := takeChars Char.isDigit cs
  if digits.isEmpty || 9 < digits.length then none
  else some (Decimal.natOfDigits digits, rest)

def scanDirective (cs : List Cell) : Option (Directive × List Cell) := do
  let (name, rest) := takeChars isNameChar cs
  let rest ← if endsAt isGap rest then some (rest.dropWhile fun c => isBlank c.char) else none
  if name = "YAML".toList then
    let (major, rest) ← scanNumber rest
    let (minor, rest) ← if startsAt (· == '.') rest then scanNumber (rest.drop 1) else none
    return (.version major minor, ← afterLine? rest)
  else if name = "TAG".toList then
    let (handle, rest) ← scanHandle rest
    let rest ← if startsAt isBlank rest then some (rest.dropWhile fun c => isBlank c.char) else none
    let (uri, rest) := takeChars (isTagChar true) rest
    if (handle = ['!'] || isClosedHandle handle) && !uri.isEmpty && endsAt isGap rest then
      return (.handle (String.ofList handle) (← unescaped? uri), ← afterLine? rest)
    else none
  else none

end Milp.Yaml
