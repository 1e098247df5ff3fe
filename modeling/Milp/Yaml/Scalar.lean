import Milp.Escape
import Milp.Yaml.Cell

/-! Plain and quoted scalars, which may go over several lines. A gap between two words stands as
it is within a line. A gap with a single line break counts as a space, and one with more as the
breaks after the first. -/
namespace Milp.Yaml

def fold (gap : List Char) : List Char :=
  match gap.filter isBreak with
  | [] => gap
  | ['\n'] => [' ']
  | '\n' :: breaks => breaks
  | breaks => breaks

/-- A plain scalar, the gap at its end, and what follows it. Continued lines are indented to some
margin, and not by tabs. In a flow mapping the scalar also ends at an indicator, which must not
stand right after a colon. -/
def scanPlain (flow : Bool) (margin : Nat) (gap : List Char) :
    List Cell → Option (List Char × List Char × List Cell)
  | [] => some ([], gap, [])
  | c :: cs =>
    if isGap c.char then
      if c.char == '\t' && c.column < margin && gap.any isBreak then none
      else scanPlain flow margin (gap ++ [c.char]) cs
    else if !gap.isEmpty
        && ((!flow && c.column < margin) || c.char == '#' || atEdge (c :: cs)) then
      some ([], gap, c :: cs)
    else if flow && c.char == ':' && startsAt ",?[]\x7b\x7d".toList.contains cs then none
    else if (c.char == ':' && endsAt isGap cs)
        || (flow && ",[]\x7b\x7d".toList.contains c.char) then
      some ([], gap, c :: cs)
    else do
      let (word, last, rest) ← scanPlain flow margin [] cs
      return (fold gap ++ c.char :: word, last, rest)

/-- The rest of a scalar in single quotes, in which a quote is written twice, and what follows
it. -/
def scanSingle (gap : List Char) : List Cell → Option (List Char × List Cell)
  | [] => none
  | c :: cs =>
    if isGap c.char then scanSingle (gap ++ [c.char]) cs
    else if !gap.isEmpty && atEdge (c :: cs) then none
    else if c.char == '\'' then
      match cs with
      | d :: ds =>
        if d.char == '\'' then do
          let (word, rest) ← scanSingle [] ds
          return (fold gap ++ '\'' :: word, rest)
        else some (fold gap, d :: ds)
      | [] => some (fold gap, [])
    else do
      let (word, rest) ← scanSingle [] cs
      return (fold gap ++ c.char :: word, rest)

def escape? : List Char → Option (Char × Nat)
  | [] => none
  | c :: cs =>
    match c with
    | 'x' => (spelled? 2 cs).map (·, 3)
    | 'u' => (spelled? 4 cs).map (·, 5)
    | 'U' => (spelled? 8 cs).map (·, 9)
    | '0' => some ('\x00', 1)
    | 'a' => some ('\x07', 1)
    | '\t' => some ('\t', 1)
    | 'v' => some ('\x0b', 1)
    | 'e' => some ('\x1b', 1)
    | ' ' => some (' ', 1)
    | 'N' => some ('\u0085', 1)
    | '_' => some ('\u00A0', 1)
    | 'L' => some ('\u2028', 1)
    | 'P' => some ('\u2029', 1)
    | c => (Json.escaped? c).map (·, 1)

/-- A gap in double quotes. After an escaped line break only the breaks that follow count. -/
structure Gap where
  chars : List Char := []
  afterEscape : Bool := false

namespace Gap

def text (g : Gap) : List Char := if g.afterEscape then g.chars.filter isBreak else fold g.chars

def isEmpty (g : Gap) : Bool := g.chars.isEmpty && !g.afterEscape

end Gap

/-- The rest of a scalar in double quotes, and what follows it. The first `skip` characters
belong to an escape. -/
def scanDouble : Nat → Gap → List Cell → Option (List Char × List Cell)
  | _, _, [] => none
  | skip + 1, gap, _ :: cs => scanDouble skip gap cs
  | 0, gap, c :: cs =>
    if isGap c.char then scanDouble 0 { gap with chars := gap.chars ++ [c.char] } cs
    else if !gap.isEmpty && atEdge (c :: cs) then none
    else if c.char == '"' then some (gap.text, cs)
    else if c.char == '\\' then
      if startsAt isBreak cs then do
        let (word, rest) ← scanDouble 1 { afterEscape := true } cs
        return (gap.text ++ word, rest)
      else do
        let (x, n) ← escape? ((cs.take 9).map Cell.char)
        let (word, rest) ← scanDouble n {} cs
        return (gap.text ++ x :: word, rest)
    else do
      let (word, rest) ← scanDouble 0 {} cs
      return (gap.text ++ c.char :: word, rest)

end Milp.Yaml
