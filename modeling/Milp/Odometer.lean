/-! Products of ordered axes. An odometer enumerates the tuples with one entry per axis, the
first axis outermost and the last one fastest; with no axes there is one empty tuple, and with
an empty axis there is none. `tuples` is the same enumeration as a list. -/
namespace Milp

/-- The largest size that is told apart from larger ones. -/
def sizeCap : Nat := Nat.pow 2 64 - 1

def tuples {α : Type} : List (List α) → List (List α)
  | [] => [[]]
  | axis :: axes => axis.flatMap fun x => (tuples axes).map (x :: ·)

structure Odometer (α : Type) where
  axes : List (List α)
  /-- The positions of the next tuple on its axes; none when every tuple was given. -/
  positions : Option (List Nat)

namespace Odometer

variable {α : Type}

/-- Stands before the first tuple. -/
def start (axes : List (List α)) : Odometer α :=
  ⟨axes, if axes.any List.isEmpty then none else some (axes.map fun _ => 0)⟩

def count (axes : List (List α)) : Nat := axes.foldl (fun n axis => n * axis.length) 1

/-- The number of tuples, held at `sizeCap`. -/
def size (o : Odometer α) : Nat :=
  o.axes.foldl (fun n axis => min (n * axis.length) sizeCap) 1

def pick : List (List α) → List Nat → Option (List α)
  | [], [] => some []
  | axis :: axes, p :: ps =>
    match axis[p]?, pick axes ps with
    | some x, some xs => some (x :: xs)
    | _, _ => none
  | _, _ => none

/-- Steps the last position, carrying into the one before it at the end of an axis; none when
the first position is carried out of. -/
def advance : List (List α) → List Nat → Option (List Nat)
  | axis :: axes, p :: ps =>
    match advance axes ps with
    | some qs => some (p :: qs)
    | none => if p + 1 < axis.length then some ((p + 1) :: ps.map fun _ => 0) else none
  | _, _ => none

def next? (o : Odometer α) : Option (List α × Odometer α) :=
  match o.positions with
  | none => none
  | some ps => (pick o.axes ps).map fun t => (t, { o with positions := advance o.axes ps })

def take : Nat → Odometer α → List (List α)
  | 0, _ => []
  | n + 1, o =>
    match o.next? with
    | none => []
    | some (t, o) => t :: take n o

def foldM {ε σ : Type} (step : σ → List α → Except ε σ) : Nat → Odometer α → σ → Except ε σ
  | 0, _, s => .ok s
  | n + 1, o, s =>
    match o.next? with
    | none => .ok s
    | some (t, o) =>
      match step s t with
      | .error e => .error e
      | .ok s => foldM step n o s

def forAll {ε σ : Type} (axes : List (List α)) (step : σ → List α → Except ε σ) (s : σ) :
    Except ε σ :=
  foldM step (count axes) (start axes) s

end Odometer

end Milp
