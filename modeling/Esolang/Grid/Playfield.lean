import Esolang.Error
import Esolang.Text.Lines

/-! The playfield of a Befunge program: a rectangle of characters whose edges meet, and the layout
of a source on it. -/

namespace Esolang.Grid

inductive Direction where
  | right
  | left
  | up
  | down
  deriving DecidableEq, Repr

def Direction.delta : Direction → Int × Int
  | .right => (1, 0)
  | .left => (-1, 0)
  | .up => (0, -1)
  | .down => (0, 1)

/-- What becomes of source characters outside the playfield. -/
inductive Overflow where
  | reject
  | truncate
  deriving DecidableEq, Repr

structure Playfield where
  width : Nat
  height : Nat
  rows : Array (Array Char)
  deriving DecidableEq

namespace Playfield

/-- The character in a column of a line; a line that is too short goes on with spaces. -/
def charAt (line : Array Char) (x : Nat) : Char := line.getD x ' '

/-- The playfield that shows the part of some lines that lies on it. -/
def ofLines (width height : Nat) (lines : List (List Char)) : Playfield :=
  let table := (lines.map List.toArray).toArray
  { width, height
    rows := Array.ofFn fun y : Fin height =>
      Array.ofFn fun x : Fin width => charAt (table.getD y #[]) x }

def blank (width height : Nat) : Playfield := ofLines width height []

/-- The number of characters of a line that lie on the playfield. -/
def roomAt (width height y : Nat) : Nat := if y < height then width else 0

/-- Line and column of the first character outside, in reading order. -/
def firstOutside? (width height : Nat) (lines : List (List Char)) : Option (Nat × Nat) :=
  lines.zipIdx.findSome? fun (line, y) =>
    if roomAt width height y < line.length then some (y, roomAt width height y) else none

/-- Lays a source out on a playfield. The error counts lines and columns from one. -/
def layOut (overflow : Overflow) (width height : Nat) (source : List Char) :
    Except SourceError Playfield :=
  let lines := lines source
  match overflow, firstOutside? width height lines with
  | .reject, some (y, x) => .error (.gridOverflow (y + 1) (x + 1) width height)
  | _, _ => .ok (ofLines width height lines)

/-- The character at a place, a space outside the playfield. -/
def get (f : Playfield) (x y : Nat) : Char := charAt (f.rows.getD y #[]) x

def set (f : Playfield) (x y : Nat) (c : Char) : Playfield :=
  { f with rows := f.rows.modify y fun row => row.setIfInBounds x c }

/-- A playfield with as many rows and columns as it says. -/
def WellFormed (f : Playfield) : Prop :=
  f.rows.size = f.height ∧ ∀ row ∈ f.rows, row.size = f.width

theorem ofLines_wellFormed (width height : Nat) (lines : List (List Char)) :
    (ofLines width height lines).WellFormed := by
  simp [WellFormed, ofLines]

def place? (f : Playfield) (x y : Int64) : Option (Nat × Nat) :=
  if 0 ≤ x.toInt ∧ x.toInt < f.width ∧ 0 ≤ y.toInt ∧ y.toInt < f.height then
    some (x.toInt.toNat, y.toInt.toNat)
  else
    none

/-- The place one move away, across the opposite edge where the playfield ends. -/
def neighbour (f : Playfield) (x y : Nat) (direction : Direction) : Nat × Nat :=
  let (dx, dy) := direction.delta
  (((x + dx : Int) % f.width).toNat, ((y + dy : Int) % f.height).toNat)

end Playfield

end Esolang.Grid
