import Milp.Toml.Key
import Milp.Toml.Moment
import Milp.Toml.Number

/-! TOML values: strings, numbers, truth values, dates and times, arrays, and tables written as
values. Only arrays and long strings go over several lines. -/
namespace Milp.Toml

def endsWord (c : Char) : Bool :=
  isBlank c || c == ',' || c == '\x7d' || c == ']' || c == '#' || c == '\n' || c == '\r'

def scanAtom (cs : List Char) : Option (Toml × List Char) :=
  match cs.head? with
  | some '"' => (scanString cs).map fun (s, rest) => (string (String.ofList s), rest)
  | some '\'' => (scanString cs).map fun (s, rest) => (string (String.ofList s), rest)
  | _ =>
    match afterMoment? cs with
    | some rest => some (moment, rest)
    | none =>
      let word := cs.takeWhile fun c => !endsWord c
      (word? word).map (·, cs.drop word.length)

mutual

/-- A value, and what follows it. Arrays and tables are nested in at most `depth` levels; the fuel
bounds the number of parts. -/
def scanValue : Nat → Nat → List Char → Option (Toml × List Char)
  | 0, _, _ => none
  | fuel + 1, depth, cs =>
    match cs, depth with
    | '[' :: _, 0 => none
    | '\x7b' :: _, 0 => none
    | '[' :: rest, depth + 1 =>
      (scanItems fuel depth (dropFiller false rest)).map fun (is, rest) => (array is, rest)
    | '\x7b' :: rest, depth + 1 =>
      match dropBlanks rest with
      | '\x7d' :: rest => some (table .closed [], rest)
      | rest => (scanEntries fuel depth rest []).map fun (es, rest) => (table .closed es, rest)
    | cs, _ => scanAtom cs

def scanItems : Nat → Nat → List Char → Option (List Toml × List Char)
  | 0, _, _ => none
  | fuel + 1, depth, cs =>
    match cs with
    | ']' :: rest => some ([], rest)
    | cs => do
      let (item, rest) ← scanValue fuel depth cs
      match dropFiller false rest with
      | ',' :: rest =>
        let (items, rest) ← scanItems fuel depth (dropFiller false rest)
        return (item :: items, rest)
      | ']' :: rest => return ([item], rest)
      | _ => none

def scanEntries : Nat → Nat → List Char → Entries → Option (Entries × List Char)
  | 0, _, _, _ => none
  | fuel + 1, depth, cs, entries => do
    let (path, rest) ← scanKey cs
    match rest with
    | '=' :: rest =>
      let (v, rest) ← scanValue fuel depth (dropBlanks rest)
      let entries ← addValue v path entries
      match dropBlanks rest with
      | ',' :: rest => scanEntries fuel depth rest entries
      | '\x7d' :: rest => return (entries, rest)
      | _ => none
    | _ => none

end

end Milp.Toml
