import EsotericHost.Machine.Basic
import EsotericHost.Text.Lines

/-!
# Playfields

A playfield is a rectangle of characters, at least one wide and one high, in which the source
stands with its lines filled up by spaces. Moving over an edge comes in at the opposite edge.
-/

namespace EsotericHost.Befunge

/-- A rectangle of characters, row after row. -/
structure Field where
  width : Nat
  height : Nat
  cells : Array Char
  deriving Repr, DecidableEq, Inhabited

namespace Field

/-- The playfield of a machine without a program. -/
def empty : Field := ⟨0, 0, #[]⟩

/-- The character in a column and a row, if both are within the field. -/
def cell? (f : Field) (x y : Int) : Option Char :=
  if 0 ≤ x ∧ x < f.width ∧ 0 ≤ y ∧ y < f.height then f.cells[y.toNat * f.width + x.toNat]? else none

/-- What looking up a place outside the field breaks down with: the row is looked up first. -/
def missing (f : Field) (x y : Nat) : Breakdown :=
  if f.height ≤ y then .index f.height y else .index f.width x

/-- The field with one character replaced. -/
def set (f : Field) (x y : Int) (c : Char) : Field :=
  { f with cells := f.cells.setIfInBounds (y.toNat * f.width + x.toNat) c }

/-- How many characters are not spaces. -/
def filled (f : Field) : Nat :=
  f.cells.foldl (fun n c => if c = ' ' then n else n + 1) 0

/-- The field on which a source stands. -/
def ofSource (source : List Char) : Field :=
  let rows := (Text.lines '\n' source).map Text.dropReturns
  -- An empty source stands on a field of one space, so that the pointer has a place.
  let width := max 1 (rows.foldl (fun n row => max n row.length) 0)
  let full (row : List Char) : List Char := row ++ List.replicate (width - row.length) ' '
  -- Rows of unequal length are filled up to the widest.
  let cells := if rows.isEmpty then List.replicate width ' ' else rows.flatMap full
  ⟨width, max 1 rows.length, cells.toArray⟩

end Field

/-- The directions in which a program runs. -/
inductive Direction where
  | right
  | left
  | up
  | down
  deriving Repr, DecidableEq, Inhabited

namespace Direction

/-- One of the four directions for each number. -/
def ofNumber (n : Nat) : Direction :=
  match n % 4 with
  | 0 => right
  | 1 => left
  | 2 => up
  | _ => down

/-- The place next to a column and a row, and whether the way there leads over an edge. There is no
such place on a field without columns or rows. -/
def move (d : Direction) (width height x y : Nat) : Except Breakdown (Nat × Nat × Bool) :=
  match d with
  | right =>
    -- The way to the first column is the one that leads over the edge.
    if width = 0 then .error .remainder else .ok ((x + 1) % width, y, (x + 1) % width = 0)
  | left =>
    if 0 < x then .ok (x - 1, y, false)
    else if width = 0 then .error .subtraction else .ok (width - 1, y, true)
  | down =>
    if height = 0 then .error .remainder else .ok (x, (y + 1) % height, (y + 1) % height = 0)
  | up =>
    if 0 < y then .ok (x, y - 1, false)
    else if height = 0 then .error .subtraction else .ok (x, height - 1, true)

/-- A row of directions drawn at random from a seed: each number is mixed with the seed by
multiplications and shifts until its bits look unrelated. -/
def drawn (seed : UInt64) (n : Nat) : Direction :=
  let z := seed + UInt64.ofNat (n + 1) * 0x9E3779B97F4A7C15
  let z := (z ^^^ (z >>> 30)) * 0xBF58476D1CE4E5B9
  let z := (z ^^^ (z >>> 27)) * 0x94D049BB133111EB
  ofNumber (z ^^^ (z >>> 31)).toNat

end Direction

end EsotericHost.Befunge
