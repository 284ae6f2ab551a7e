import Esolang.Grid.Playfield
import Esolang.Interpreter
import Esolang.Random
import Esolang.Stream.Sink

/-! The Befunge machine: a cursor that travels over the playfield, carries out the instruction under
it and keeps its operands on a stack of 64-bit words. -/

namespace Esolang.Grid

inductive Underflow where
  | fault
  | zero
  deriving DecidableEq, Repr

structure Config where
  width : Nat := 80
  height : Nat := 25
  overflow : Overflow := .reject
  underflow : Underflow := .fault
  seed : Option UInt64 := none
  deriving DecidableEq, Repr

structure Machine where
  field : Playfield
  x : Nat := 0
  y : Nat := 0
  direction : Direction := .right
  /-- The operands, the top one first. -/
  stack : List Int64 := []
  /-- Whether characters are pushed instead of carried out. -/
  stringMode : Bool := false
  overflow : Overflow
  underflow : Underflow
  rng : Rng
  output : Sink
  deriving DecidableEq

/-- The quotient rounded down, from the quotient rounded toward zero. -/
def floorDiv (b a : Int64) : Int64 :=
  let quotient := b / a
  if b % a ≠ 0 ∧ (b < 0) ≠ (a < 0) then quotient - 1 else quotient

def floorMod (b a : Int64) : Int64 := b - floorDiv b a * a

namespace Machine

/-- A machine whose generator is seeded by the setting, or else by `entropy`. -/
def ofConfig (config : Config) (entropy : UInt64) (output : Sink) : Except Error Machine :=
  if config.width = 0 ∨ config.height = 0 then
    .error (.config .emptyGrid)
  else
    .ok
      { field := .blank config.width config.height
        overflow := config.overflow
        underflow := config.underflow
        rng := .ofSeed (config.seed.getD entropy)
        output }

def here (m : Machine) : Char := m.field.get m.x m.y

def advance (m : Machine) : Machine :=
  let (x, y) := m.field.neighbour m.x m.y m.direction
  { m with x, y }

def push (value : Int64) (m : Machine) : Machine := { m with stack := value :: m.stack }

def turn (direction : Direction) (m : Machine) : Machine := { m with direction }

def pop (instruction : Char) : Call Machine Error Int64 :=
  .ofFunction fun m =>
    match m.stack, m.underflow with
    | value :: stack, _ => (.ok value, { m with stack })
    | [], .zero => (.ok 0, m)
    | [], .fault => (.error (.fault (.stackUnderflow instruction)), m)

/-- Replaces the two top operands, the upper one given last. -/
def combine (instruction : Char) (f : Int64 → Int64 → Int64) : Call Machine Error Unit := do
  let a ← pop instruction
  let b ← pop instruction
  modify (push (f b a))

/-- Replaces the two top operands by a quotient or remainder, and leaves them where they are if the
divisor is zero. -/
def divide (instruction : Char) (f : Int64 → Int64 → Int64) : Call Machine Error Unit := do
  let before := (← get).stack
  let a ← pop instruction
  let b ← pop instruction
  if a = 0 then
    modify fun m => { m with stack := before }
    throw (.fault (.divisionByZero instruction before))
  else
    modify (push (f b a))

/-- Turns one way for a zero on top and the other way for any other number. -/
def branch (instruction : Char) (zero other : Direction) : Call Machine Error Unit := do
  let a ← pop instruction
  modify (turn (if a = 0 then zero else other))

def randomDirection (m : Machine) : Machine :=
  let (choice, rng) := m.rng.below 4
  { m with
    direction := match choice with
      | 0 => .right
      | 1 => .left
      | 2 => .up
      | _ => .down
    rng }

def wordOf (c : Char) : Int64 := .ofInt c.toNat

/-- The code stored at a place, zero outside the playfield. -/
def load? (m : Machine) (x y : Int64) : Int64 :=
  match m.field.place? x y with
  | some (x, y) => wordOf (m.field.get x y)
  | none => 0

def storeAt (x y value : Int64) : Call Machine Error Unit := do
  let m ← get
  match m.field.place? x y, scalar? value.toInt with
  | none, _ => throw (.fault (.outOfBounds x y))
  | some _, none => throw (.fault (.invalidCharacter value.toInt))
  | some (x, y), some c => modify fun m => { m with field := m.field.set x y c }

def onOutput (call : Call Sink Error Unit) : Call Machine Error Unit :=
  .onPart Machine.output (fun m output => { m with output }) call

/-- Carries out one instruction that does not halt. Every other character does nothing. -/
def execute (instruction : Char) : Call Machine Error Unit := do
  match instruction with
  | '+' => combine instruction (· + ·)
  | '-' => combine instruction (· - ·)
  | '*' => combine instruction (· * ·)
  | '/' => divide instruction floorDiv
  | '%' => divide instruction floorMod
  | '!' =>
    let a ← pop instruction
    modify (push (if a = 0 then 1 else 0))
  | '\x60' => combine instruction fun b a => if a < b then 1 else 0
  | '>' => modify (turn .right)
  | '<' => modify (turn .left)
  | '^' => modify (turn .up)
  | 'v' => modify (turn .down)
  | '?' => modify randomDirection
  | '_' => branch instruction .right .left
  | '|' => branch instruction .down .up
  | '\x22' => modify fun m => { m with stringMode := true }
  | ':' =>
    let a ← pop instruction
    modify fun m => (m.push a).push a
  | '\x5c' =>
    let a ← pop instruction
    let b ← pop instruction
    modify fun m => (m.push a).push b
  | '$' =>
    let _ ← pop instruction
  | '.' =>
    let a ← pop instruction
    onOutput (Sink.writeNumber a)
  | ',' =>
    let a ← pop instruction
    onOutput (Sink.writeCode a.toInt)
  | '#' => modify advance
  | 'g' =>
    let y ← pop instruction
    let x ← pop instruction
    modify fun m => m.push (m.load? x y)
  | 'p' =>
    let y ← pop instruction
    let x ← pop instruction
    let value ← pop instruction
    storeAt x y value
  | '&' | '~' => throw (.fault (.unsupported instruction))
  | other => if other.isDigit then modify (push (wordOf other - wordOf '0'))

/-- Pushes the character under the cursor, or leaves string mode at a double quote. -/
def readString (c : Char) (m : Machine) : Machine :=
  if c = '\x22' then { m with stringMode := false } else m.push (wordOf c)

def step : Call Machine Error Progress := do
  let m ← get
  if m.stringMode then
    modify fun m => (m.readString m.here).advance
    return .proceed
  else if m.here = '@' then
    return .halt
  else
    execute m.here
    modify advance
    return .proceed

def load (source : String) : Call Machine SourceError Unit := do
  let m ← get
  let field ← Playfield.layOut m.overflow m.field.width m.field.height source.toList
  modify fun m =>
    { m with field, x := 0, y := 0, direction := .right, stack := [], stringMode := false }

def finish : Call Machine Error Unit :=
  .mapError .stream (.onPart Machine.output (fun m output => { m with output }) Sink.flush)

/-- Completes a division by zero: puts a value in place of both operands and moves on. -/
def resolveDivision (value : Int64) : Call Machine Error Unit := do
  let instruction := (← get).here
  if instruction = '/' ∨ instruction = '%' then
    let _ ← pop instruction
    let _ ← pop instruction
    modify fun m => (m.push value).advance
  else
    throw (.config (.noPendingDivision instruction))

def interpreter : Interpreter Machine := { load, step, finish }

end Machine

end Esolang.Grid
