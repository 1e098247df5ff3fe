import Milp.Yaml.Basic
import Milp.Yaml.Block
import Milp.Yaml.Scalar
import Milp.Yaml.Tag

/-! The tokens of YAML texts. Indentation becomes tokens that open and close block mappings. A
scalar on one line is found to be a key only at the colon after it, and the token that says so is
put in front of it then. Sequences, which no setting takes, are refused. -/
namespace Milp.Yaml

inductive Token where
  | directive (directive : Directive)
  | documentStart
  | documentEnd
  | blockStart
  | blockEnd
  | flowStart
  | flowEnd
  | comma
  | key
  | value
  | reference (name : String)
  | anchor (name : String)
  | tag (handle suffix : String)
  | scalar (text : String) (style : Style)
deriving DecidableEq

/-- What may turn out to be a key. -/
structure Candidate where
  /-- The number of tokens before it. -/
  before : Nat
  line : Nat
  column : Nat
  /-- Whether nothing but a key may stand in its place. -/
  required : Bool

def Candidate.isStale (k : Candidate) (c : Cell) : Bool :=
  k.line < c.line || k.column + 1024 < c.column

structure State where
  rest : List Cell
  /-- The tokens, the last one first. -/
  tokens : List Token := []
  /-- The columns of the open block mappings, the innermost first. -/
  blocks : List Nat := []
  /-- Whether a key may start. -/
  mayStart : Bool := true
  candidate : Option Candidate := none
  /-- The candidates around the open flow mappings, the innermost first. -/
  outer : List (Option Candidate) := []

namespace State

def inFlow (s : State) : Bool := !s.outer.isEmpty

/-- The least column of what belongs to the innermost block mapping. -/
def margin (s : State) : Nat :=
  match s.blocks with
  | [] => 0
  | n :: _ => n + 1

def emit (s : State) (t : Token) : State := { s with tokens := t :: s.tokens }

def insert (s : State) (before : Nat) (t : Token) : State :=
  let k := s.tokens.length - before
  { s with tokens := s.tokens.take k ++ t :: s.tokens.drop k }

/-- Gives the candidate up, unless it had to be a key. -/
def dropKey? (s : State) : Option State :=
  if s.candidate.any Candidate.required then none else some { s with candidate := none }

/-- Makes the place a candidate, if a key may start there. -/
def offerKey? (s : State) (c : Cell) : Option State :=
  if s.mayStart then do
    let s ← s.dropKey?
    let required := !s.inFlow && s.blocks.head? == some c.column
    return { s with candidate := some ⟨s.tokens.length, c.line, c.column, required⟩ }
  else some s

def dropStale? (s : State) (c : Cell) : Option State :=
  let stale (k : Option Candidate) := k.any fun k => k.isStale c
  if (s.candidate :: s.outer).any fun k => stale k && k.any Candidate.required then none
  else
    let keep (k : Option Candidate) := if stale k then none else k
    some { s with candidate := keep s.candidate, outer := s.outer.map keep }

def closeBlocks (p : Nat → Bool) (s : State) : State :=
  if s.inFlow then s
  else
    let closed := s.blocks.takeWhile p
    { s with
      tokens := closed.map (fun _ => Token.blockEnd) ++ s.tokens
      blocks := s.blocks.drop closed.length }

/-- Opens a block mapping at a column behind the first `before` tokens, unless the place belongs
to one already. -/
def openBlock (s : State) (column before : Nat) : State :=
  if s.inFlow || column < s.margin then s
  else { s.insert before .blockStart with blocks := column :: s.blocks }

def advance (s : State) (t : Token) (mayStart : Bool) (rest : List Cell) : State :=
  { s.emit t with mayStart, rest }

def edge (s : State) (t : Token) (rest : List Cell) : Option State :=
  ((s.closeBlocks fun _ => true).dropKey?).map fun s => s.advance t false rest

def value (s : State) (c : Cell) (cs : List Cell) : Option State :=
  match s.candidate with
  | some k =>
    let s := (s.insert k.before .key).openBlock k.column k.before
    some ({ s with candidate := none }.advance .value false cs)
  | none =>
    if s.inFlow then some (s.advance .value false cs)
    else if s.mayStart then
      some ((s.openBlock c.column s.tokens.length).advance .value true cs)
    else none

def explicitKey (s : State) (c : Cell) (cs : List Cell) : Option State :=
  if s.inFlow || s.mayStart then
    ((s.openBlock c.column s.tokens.length).dropKey?).map fun s => s.advance .key (!s.inFlow) cs
  else none

def inlineScalar (s : State) (c : Cell) (style : Style)
    (read : Option (List Char × Bool × List Cell)) : Option State := do
  let s ← s.offerKey? c
  let (text, mayStart, rest) ← read
  return s.advance (.scalar (String.ofList text) style) mayStart rest

def blockScalar (s : State) (folded : Bool) (cs : List Cell) : Option State := do
  let s ← s.dropKey?
  let (text, rest) ← scanBlock folded s.margin cs
  return s.advance (.scalar (String.ofList text) (if folded then .folded else .literal)) true rest

/-- Whether a plain scalar may start with a character. A dash, a question mark or a colon may be
one if it is no indicator. -/
def startsPlain (c : Char) : Bool :=
  !isGap c && !",[]\x7b\x7d#&*!|>'\"%@`".toList.contains c

/-- A plain scalar. After one that ends before another line, a key may start. -/
def plain (s : State) (c : Cell) (cs : List Cell) : Option State :=
  s.inlineScalar c .plain
    ((scanPlain s.inFlow s.margin [] (c :: cs)).map fun (t, gap, rest) =>
      (t, gap.any isBreak, rest))

def token (s : State) (c : Cell) (cs : List Cell) : Option State :=
  let isIndicator := s.inFlow || endsAt isGap cs
  if c.column == 0 && c.char == '%' then do
    let (d, rest) ← scanDirective cs
    s.edge (.directive d) rest
  else if atMarker '-' (c :: cs) then s.edge .documentStart (cs.drop 2)
  else if atMarker '.' (c :: cs) then s.edge .documentEnd (cs.drop 2)
  else match c.char with
    | '\x7b' => do
      let s ← s.offerKey? c
      let s := { s with candidate := none, outer := s.candidate :: s.outer }
      return s.advance .flowStart true cs
    | '\x7d' =>
      match s.outer with
      | [] => none
      | k :: ks =>
        s.dropKey?.map fun s =>
          { s with candidate := k, outer := ks }.advance .flowEnd false cs
    | ',' => s.dropKey?.map fun s => s.advance .comma true cs
    | '*' => do
      let s ← s.offerKey? c
      let (name, rest) ← scanAnchor cs
      return s.advance (.reference name) false rest
    | '&' => do
      let s ← s.offerKey? c
      let (name, rest) ← scanAnchor cs
      return s.advance (.anchor name) false rest
    | '!' => do
      let s ← s.offerKey? c
      let ((handle, suffix), rest) ← scanTag s.inFlow (c :: cs)
      return s.advance (.tag handle suffix) false rest
    | '\'' => s.inlineScalar c .quoted ((scanSingle [] cs).map fun (t, rest) => (t, false, rest))
    | '"' => s.inlineScalar c .quoted ((scanDouble 0 {} cs).map fun (t, rest) => (t, false, rest))
    | '|' => if s.inFlow then none else s.blockScalar false cs
    | '>' => if s.inFlow then none else s.blockScalar true cs
    | '-' => if endsAt isGap cs then none else s.plain c cs
    | '?' => if isIndicator then s.explicitKey c cs else s.plain c cs
    | ':' => if isIndicator then s.value c cs else s.plain c cs
    | _ => if startsPlain c.char then s.plain c cs else none

/-- Drops what separates tokens. A line break lets a key start, before which tabs must not stand
in a block. A line may begin with a byte order mark, which takes a column. -/
def dropFiller (inFlow mayStart comment : Bool) : List Cell → Bool × List Cell
  | [] => (mayStart, [])
  | c :: cs =>
    if isBreak c.char then dropFiller inFlow (mayStart || !inFlow) false cs
    else if comment then dropFiller inFlow mayStart true cs
    else if c.char == ' ' || (c.char == '\t' && (inFlow || !mayStart)) then
      dropFiller inFlow mayStart false cs
    else if c.char == '#' then dropFiller inFlow mayStart true cs
    else if c.char == '\uFEFF' && c.column == 0 then dropFiller inFlow mayStart false cs
    else (mayStart, c :: cs)

def scan : Nat → State → Option (List Token)
  | 0, _ => none
  | fuel + 1, s =>
    let (mayStart, rest) := dropFiller s.inFlow s.mayStart false s.rest
    match rest with
    | [] => (s.dropKey?).map fun s => (s.closeBlocks fun _ => true).tokens.reverse
    | c :: cs => do
      let s ← { s with mayStart, rest }.dropStale? c
      let s ← (s.closeBlocks fun n => c.column < n).token c cs
      scan fuel s

end State

def tokens? (text : String) : Option (List Token) := do
  let cs ← cells? text
  State.scan (cs.length + 1) { rest := cs }

end Milp.Yaml
