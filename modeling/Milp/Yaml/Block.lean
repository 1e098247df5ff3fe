import Milp.Yaml.Cell

/-! Block scalars: the lines below an indicator that are indented at least as far as the first
one. A literal scalar keeps its line breaks; a folded one joins lines that start with a word. -/
namespace Milp.Yaml

inductive Chomping where
  /-- All are dropped. -/
  | strip
  /-- The first is kept. -/
  | clip
  /-- All are kept. -/
  | keep
deriving DecidableEq

structure Header where
  chomping : Chomping := .clip
  /-- How far the lines are indented below what is around the scalar. -/
  indent : Option Nat := none

def Header.add (h : Header) (c : Char) : Option Header :=
  if (c == '+' || c == '-') && h.chomping = .clip then
    some { h with chomping := if c == '+' then .keep else .strip }
  else if '1' ≤ c && c ≤ '9' && h.indent.isNone then
    some { h with indent := some (c.toNat - '0'.toNat) }
  else none

def scanHeader (h : Header) : List Cell → Option (Header × List Cell)
  | [] => some (h, [])
  | c :: cs =>
    match h.add c.char with
    | some h => scanHeader h cs
    | none => (afterLine? (c :: cs)).map (h, ·)

def lines : List Cell → List (List Cell)
  | [] => []
  | c :: cs =>
    if isBreak c.char then [c] :: lines cs
    else match lines cs with
      | [] => [[c]]
      | l :: ls => (c :: l) :: ls

def indentOf (l : List Cell) : Nat := (l.takeWhile (·.char == ' ')).length

/-- The indentation of the lines of a scalar: as far as the first line that holds something, or
as the longest empty one before it, but at least to the margin. -/
def contentIndent? (margin : Nat) (h : Header) (ls : List (List Cell)) : Option Nat :=
  match h.indent with
  | some n => some (margin - 1 + n)
  | none =>
    let empty := ls.takeWhile fun l => startsAt isBreak (l.drop (indentOf l))
    let first := (ls.drop empty.length).head?.getD []
    if startsAt (· == '\t') (first.drop (indentOf first)) then none
    else some ((empty ++ [first]).foldl (fun n l => max n (indentOf l)) (max margin 1))

def takeLines (indent : Nat) : List (List Cell) → Option (List (List Cell) × List Cell)
  | [] => some ([], [])
  | l :: ls =>
    let n := min indent (indentOf l)
    let rest := l.drop n
    if rest.isEmpty then some ([], [])
    else if n < indent && !startsAt isBreak rest then
      if startsAt (· == '\t') rest then none else some ([], rest ++ ls.flatten)
    else do
      let (more, after) ← takeLines indent ls
      return (rest :: more, after)

/-- Joins lines. The line before, if any, ended with `held`, and was followed by empty lines with
the breaks `empty`; it may have started with a blank. -/
def joinLines (folded : Bool) (chomping : Chomping) (held empty : List Char) (blank : Bool) :
    List (List Cell) → List Char
  | [] =>
    match chomping with
    | .strip => []
    | .clip => held
    | .keep => held ++ empty
  | l :: ls =>
    let word := (l.map Cell.char).filter fun c => !isBreak c
    let breaks := (l.map Cell.char).filter isBreak
    match word with
    | [] => joinLines folded chomping held (empty ++ breaks) blank ls
    | c :: _ =>
      let joint :=
        if folded && held == ['\n'] && !blank && !isBlank c then
          if empty.isEmpty then [' '] else []
        else held
      joint ++ empty ++ word ++ joinLines folded chomping breaks [] (isBlank c) ls

/-- A block scalar after its first indicator, and what follows it. The margin is where the lines
of what is around it would be continued. -/
def scanBlock (folded : Bool) (margin : Nat) (cs : List Cell) :
    Option (List Char × List Cell) := do
  let (h, rest) ← scanHeader {} cs
  let ls := lines rest
  let indent ← contentIndent? margin h ls
  let (ls, rest) ← takeLines indent ls
  return (joinLines folded h.chomping [] [] false ls, rest)

end Milp.Yaml
