import Esolang.Text.Lines
import Esolang.Troop.Program

/-! The board of the Monkeys language: seven monkeys and the bananas not yet eaten, on a square of
ten by ten cells, with the moves and group actions of a monkey and the text that shows a board. -/

namespace Esolang.Troop

def size : Nat := 10

structure Cell where
  x : Nat
  y : Nat
  deriving DecidableEq, Repr, Inhabited

/-- Whether two cells touch, at least at a corner, or are the same. -/
def Cell.adjacent (a b : Cell) : Bool :=
  a.x ≤ b.x + 1 && b.x ≤ a.x + 1 && a.y ≤ b.y + 1 && b.y ≤ a.y + 1

inductive Direction where
  | up
  | down
  | left
  | right
  deriving DecidableEq, Repr

/-- The next cell in a direction, unless the board ends there. -/
def Cell.next? (cell : Cell) : Direction → Option Cell
  | .up => if 0 < cell.y then some { cell with y := cell.y - 1 } else none
  | .down => if cell.y + 1 < size then some { cell with y := cell.y + 1 } else none
  | .left => if 0 < cell.x then some { cell with x := cell.x - 1 } else none
  | .right => if cell.x + 1 < size then some { cell with x := cell.x + 1 } else none

structure Banana where
  id : Nat
  cell : Cell
  deriving DecidableEq, Repr

structure Monkey where
  cell : Cell
  value : UInt8 := 0
  sleeping : Bool := false
  /-- The place in the program that the monkey has marked. -/
  mark : Option Nat := none
  /-- The banana that the monkey carries, by its id. -/
  banana : Option Nat := none
  deriving DecidableEq, Repr, Inhabited

structure Board where
  monkeys : Vector Monkey 7
  bananas : List Banana
  deriving DecidableEq

namespace Board

def monkey (b : Board) (i : Fin 7) : Monkey := b.monkeys.get i

/-- The cells of some rows in reading order, with what they show. -/
def cellsOf (rows : List (List Char)) : List (Cell × Char) :=
  rows.zipIdx.flatMap fun (row, y) => row.zipIdx.map fun (c, x) => (⟨x, y⟩, c)

def digit (monkey : Fin 7) : Char :=
  (#v['1', '2', '3', '4', '5', '6', '7'] : Vector Char 7).get monkey

/-- The first cell that shows a character, or the corner cell if none does. -/
def cellShowing (cells : List (Cell × Char)) (c : Char) : Cell :=
  ((cells.find? (·.2 = c)).map (·.1)).getD ⟨0, 0⟩

/-- The board that some rows show, its bananas numbered in reading order. -/
def ofRows (rows : List (List Char)) : Board :=
  let cells := cellsOf rows
  let fruit := (cells.filter (·.2 = '!')).map (·.1)
  { monkeys := Vector.ofFn fun i => { cell := cellShowing cells (digit i) }
    bananas := fruit.zipIdx.map fun (cell, id) => { id, cell } }

/-- The board that a text shows: ten rows of ten characters, with the digits from one to seven once
each and no other digit. -/
def ofText? (text : List Char) : Option Board :=
  let rows := lines text
  if rows.length = size ∧ rows.all (·.length = size) ∧
      (text.filter Char.isDigit).isPerm ['1', '2', '3', '4', '5', '6', '7'] then
    some (ofRows rows)
  else
    none

def startRows : List String :=
  ["..!1.!....",
    ".......2!.",
    ".........!",
    ".3.!......",
    ".......!..",
    ".!....!...",
    "..5.!4....",
    "....6...!.",
    "......!...",
    ".7......!."]

def dropUnder (monkey : Fin 7) (b : Board) : Board :=
  { b with bananas := b.bananas ++ [⟨b.bananas.length, (b.monkey monkey).cell⟩] }

/-- The board that every program starts from: monkeys 6 and 7 stand on a banana each. -/
def start : Board :=
  ((ofRows (startRows.map String.toList)).dropUnder 5).dropUnder 6

def monkeyAt? (b : Board) (cell : Cell) : Option (Fin 7) :=
  b.monkeys.findFinIdx? (·.cell = cell)

def bananaAt? (b : Board) (cell : Cell) : Option Nat :=
  (b.bananas.find? (·.cell = cell)).map (·.id)

/-- What a cell shows: a monkey over a banana over the ground. -/
def symbolAt (b : Board) (cell : Cell) : Char :=
  match b.monkeyAt? cell, b.bananaAt? cell with
  | some i, _ => digit i
  | none, some _ => '!'
  | none, none => '.'

def rows (b : Board) : List (List Char) :=
  (List.range size).map fun y => (List.range size).map fun x => b.symbolAt ⟨x, y⟩

def text (b : Board) : List Char := ['\n'].intercalate b.rows

def modify (i : Fin 7) (f : Monkey → Monkey) (b : Board) : Board :=
  { b with monkeys := b.monkeys.set i (f (b.monkey i)) }

theorem monkey_modify (i j : Fin 7) (f : Monkey → Monkey) (b : Board) :
    (b.modify i f).monkey j = if i = j then f (b.monkey i) else b.monkey j := by
  show (b.monkeys.set i.val (f (b.monkey i)))[j.val] =
    if i = j then f (b.monkey i) else b.monkeys[j.val]
  simp [Vector.getElem_set, Fin.ext_iff]

def bring (id : Option Nat) (cell : Cell) (b : Board) : Board :=
  { b with
    bananas := b.bananas.map fun banana =>
      if some banana.id = id then { banana with cell } else banana }

def hasNeighbour (b : Board) (i : Fin 7) : Bool :=
  (List.finRange 7).any fun j => j ≠ i && (b.monkey i).cell.adjacent (b.monkey j).cell

def reward (m : Monkey) : Monkey := { m with value := m.value + 1 }

def wake (m : Monkey) : Monkey := { m with sleeping := false }

def handOver (i j : Fin 7) (b : Board) : Board :=
  let mine := (b.monkey i).banana
  let theirs := (b.monkey j).banana
  b.modify i (fun m => { m with banana := theirs })
    |>.modify j (fun m => { m with banana := mine })
    |>.bring theirs (b.monkey i).cell
    |>.bring mine (b.monkey j).cell

/-- What happens when a monkey moves towards another one: a sleeper wakes up; if only one of the two
carries a banana, the other one gets it; else both gain. -/
def bump (i j : Fin 7) (b : Board) : Board :=
  if (b.monkey j).sleeping then b.modify j wake
  else if (b.monkey i).banana.isSome = (b.monkey j).banana.isSome then
    (b.modify i reward).modify j reward
  else b.handOver i j

/-- Puts a monkey and what it carries on a free cell; it gains if nobody is next to it there. -/
def walk (i : Fin 7) (cell : Cell) (b : Board) : Board :=
  let b := b.modify i fun m => { m with cell }
  let b := if b.hasNeighbour i then b else b.modify i reward
  b.bring (b.monkey i).banana cell

/-- Moves a monkey; at the edge of the board it stays and loses. -/
def move (i : Fin 7) (direction : Direction) (b : Board) : Board :=
  match (b.monkey i).cell.next? direction with
  | none => b.modify i fun m => { m with value := m.value - 1 }
  | some cell =>
    match b.monkeyAt? cell with
    | some j => b.bump i j
    | none => b.walk i cell

/-- Changes the value of every other monkey that is awake next to a monkey, by the two values. -/
def influence (i : Fin 7) (f : UInt8 → UInt8 → UInt8) (b : Board) : Board :=
  let actor := b.monkey i
  { b with
    monkeys := Vector.ofFn fun j =>
      let m := b.monkey j
      if j ≠ i ∧ m.sleeping = false ∧ actor.cell.adjacent m.cell then
        { m with value := f m.value actor.value }
      else m }

/-- Lets a monkey take up a banana from its cell, if it carries none. -/
def grab (i : Fin 7) (b : Board) : Board :=
  if (b.monkey i).banana.isSome then b
  else b.modify i fun m => { m with banana := b.bananaAt? m.cell }

def eat (i : Fin 7) (b : Board) : Board :=
  match (b.monkey i).banana with
  | none => b
  | some id =>
    let b := b.modify i fun m => { m with banana := none }
    { b with bananas := b.bananas.filter (·.id ≠ id) }

end Board

end Esolang.Troop
