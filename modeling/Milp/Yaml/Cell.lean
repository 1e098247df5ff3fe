/-! YAML texts as characters with their places. Line breaks of the common kinds are all written
as line feeds; line and paragraph separators are breaks of their own. -/
namespace Milp.Yaml

structure Cell where
  char : Char
  line : Nat
  column : Nat

def isAllowed (c : Char) : Bool :=
  let n := c.toNat
  c == '\t' || c == '\n' || c == '\r' || n == 0x85 || (0x20 ≤ n && n ≤ 0x7E)
    || (0xA0 ≤ n && n ≤ 0xFFFD) || 0x10000 ≤ n

def isBlank (c : Char) : Bool := c == ' ' || c == '\t'

def isBreak (c : Char) : Bool := c == '\n' || c == '\u2028' || c == '\u2029'

def isGap (c : Char) : Bool := isBlank c || isBreak c

/-- Writes every common line break as a line feed. -/
def unifyBreaks : List Char → List Char
  | [] => []
  | '\r' :: '\n' :: cs => '\n' :: unifyBreaks cs
  | c :: cs => (if c == '\r' || c == '\u0085' then '\n' else c) :: unifyBreaks cs

def place (line column : Nat) : List Char → List Cell
  | [] => []
  | c :: cs =>
    ⟨c, line, column⟩ :: if isBreak c then place (line + 1) 0 cs else place line (column + 1) cs

def cells? (text : String) : Option (List Cell) :=
  if text.toList.all isAllowed then some (place 0 0 (unifyBreaks text.toList)) else none

def endsAt (p : Char → Bool) : List Cell → Bool
  | [] => true
  | c :: _ => p c.char

def startsAt (p : Char → Bool) : List Cell → Bool
  | [] => false
  | c :: _ => p c.char

/-- Whether a text is at a line that consists of three marks, or begins with them and a gap. -/
def atMarker (mark : Char) : List Cell → Bool
  | a :: b :: c :: rest =>
    a.column == 0 && a.char == mark && b.char == mark && c.char == mark && endsAt isGap rest
  | _ => false

def atEdge (cs : List Cell) : Bool := atMarker '-' cs || atMarker '.' cs

def afterLine? (cs : List Cell) : Option (List Cell) :=
  let rest := cs.dropWhile fun c => isBlank c.char
  let rest := if startsAt (· == '#') rest then rest.dropWhile fun c => !isBreak c.char else rest
  match rest with
  | [] => some []
  | c :: rest => if isBreak c.char then some rest else none

end Milp.Yaml
