import Std.Data.TreeMap
import Esolang.Interpreter
import Esolang.Stream.Sink
import Esolang.Stream.Source
import Esolang.Tape.Cell
import Esolang.Tape.Jumps

/-! The Brainfuck machine: a pointer on a tape without ends, and a program that is run by position
with a jump table for its brackets. -/

namespace Esolang.Tape

structure Config where
  /-- The width of a cell; no number of bits stands for cells that never wrap. -/
  cellBits : Option Nat := some 8
  deriving DecidableEq, Repr

structure Machine where
  width : CellWidth
  code : Array Char := #[]
  jumps : Array (Option Nat) := #[]
  ip : Nat := 0
  /-- A program starts at 0 and moves by one cell in a step, so that no run comes to the ends of a
  64-bit word. -/
  pointer : Int := 0
  /-- The cells touched since the program was loaded. -/
  memory : Std.TreeMap Int Int := ∅
  input : Source
  output : Sink

namespace Machine

def ofConfig (config : Config) (input : Source) (output : Sink) : Except Error Machine :=
  match CellWidth.ofSetting config.cellBits with
  | .ok width => .ok { width, input, output }
  | .error e => .error (.config e)

/-- The value of a cell; a cell that was never touched holds zero. -/
def cell (m : Machine) (index : Int) : Int := m.memory.getD index 0

def current (m : Machine) : Int := m.cell m.pointer

/-- The cells from the lowest to the highest one touched. -/
def snapshot (m : Machine) : List Int :=
  match m.memory.minKey?, m.memory.maxKey? with
  | some low, some high =>
    (List.range (high - low + 1).toNat).map fun (k : Nat) => m.cell (low + k)
  | _, _ => []

def store (value : Int) (m : Machine) : Machine :=
  { m with memory := m.memory.insert m.pointer value }

theorem cell_store (value index : Int) (m : Machine) :
    (m.store value).cell index = if m.pointer = index then value else m.cell index := by
  simp [cell, store, Std.TreeMap.getD_insert]

def move (delta : Int) (m : Machine) : Machine := { m with pointer := m.pointer + delta }

/-- Goes to the partner of the bracket at the instruction pointer. -/
def jump (m : Machine) : Machine :=
  match m.jumps[m.ip]? with
  | some (some partner) => { m with ip := partner }
  | _ => m

def advance (m : Machine) : Machine := { m with ip := m.ip + 1 }

def adjust (delta : Int) : Call Machine Error Unit := do
  let m ← get
  match m.width.add m.current delta with
  | some value => modify (store value)
  | none => throw (.fault .cellOverflow)

def readCharacter : Call Machine Error Char :=
  .onPart Machine.input (fun m input => { m with input }) Source.require

def writeCode (code : Int) : Call Machine Error Unit :=
  .onPart Machine.output (fun m output => { m with output }) (Sink.writeCode code)

/-- Carries out one instruction. Every character that is not an instruction is a comment. -/
def execute (instruction : Char) : Call Machine Error Unit := do
  match instruction with
  | '>' => modify (move 1)
  | '<' => modify (move (-1))
  | '+' => adjust 1
  | '-' => adjust (-1)
  | '.' => writeCode (← get).current
  | ',' =>
    let c ← readCharacter
    modify fun m => m.store (m.width.wrap c.toNat)
  | '[' => modify fun m => if m.current = 0 then m.jump else m
  | ']' => modify fun m => if m.current = 0 then m else m.jump
  | _ => pure ()

def load (source : String) : Call Machine SourceError Unit := do
  let code := source.toList
  let jumps ← jumpTable code
  modify fun m => { m with code := code.toArray, jumps, ip := 0, pointer := 0, memory := ∅ }

def step : Call Machine Error Progress := do
  let m ← get
  match m.code[m.ip]? with
  | none => return .halt
  | some instruction =>
    execute instruction
    modify advance
    return .proceed

def finish : Call Machine Error Unit :=
  .mapError .stream (.onPart Machine.output (fun m output => { m with output }) Sink.flush)

def interpreter : Interpreter Machine := { load, step, finish }

end Machine

end Esolang.Tape
