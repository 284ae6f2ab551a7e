import Esolang.Interpreter
import Esolang.Queue.Fifo
import Esolang.Queue.Instruction
import Esolang.Stream.Sink
import Esolang.Stream.Source

/-! The ABCR machine: one register and three queues of 64-bit words that differ in what reading them
yields when they are empty. -/

namespace Esolang.Queue

structure Machine where
  program : Array Instruction := #[]
  pc : Nat := 0
  register : Int64 := 0
  a : Fifo := { onGet := .constant 0, onPeek := .constant 0 }
  b : Fifo := { onGet := .constant 1, onPeek := .constant 1 }
  c : Fifo := { onGet := .drainInput, onPeek := .register }
  input : Source
  output : Sink

namespace Machine

def queue (m : Machine) : QueueName → Fifo
  | .a => m.a
  | .b => m.b
  | .c => m.c

def setQueue (name : QueueName) (q : Fifo) (m : Machine) : Machine :=
  match name with
  | .a => { m with a := q }
  | .b => { m with b := q }
  | .c => { m with c := q }

def setRegister (value : Int64) (m : Machine) : Machine := { m with register := value }

/-- Puts values into a queue, the first one first. -/
def extend (name : QueueName) (values : List Int64) (m : Machine) : Machine :=
  m.setQueue name ((m.queue name).extend values)

/-- Puts the code of each remaining input character into a queue. -/
def drainInput (name : QueueName) : Call Machine Error Unit :=
  .ofFunction fun m =>
    let (text, result, input) := m.input.readAll
    (result.mapError .stream,
      { m.extend name (text.map fun c => Int64.ofInt c.toNat) with input })

def take? (name : QueueName) : Call Machine Error (Option Int64) :=
  .ofFunction fun m =>
    match (m.queue name).pop? with
    | some (value, q) => (.ok (some value), m.setQueue name q)
    | none => (.ok none, m)

/-- Reads a queue, and resolves its fallback if it is empty. -/
def readQueue (name : QueueName) (fallback : Fallback)
    (oldest? : Call Machine Error (Option Int64)) : Call Machine Error Int64 := do
  match ← oldest? with
  | some value => return value
  | none =>
    match fallback with
    | .constant value => return value
    | .register => return (← get).register
    | .drainInput =>
      drainInput name
      match ← oldest? with
      | some value => return value
      | none => throw (.fault .endOfInput)

def take (name : QueueName) : Call Machine Error Int64 := do
  readQueue name ((← get).queue name).onGet (take? name)

/-- The oldest value of a queue, which stays there. -/
def peek (name : QueueName) : Call Machine Error Int64 := do
  readQueue name ((← get).queue name).onPeek (return ((← get).queue name).front?)

def isNumeric (c : Char) : Bool := c = '-' || c = '+' || c.isDigit

/-- Takes signs and digits from the input, and reads them as a number; what is no number reads as
zero. -/
def readSigned : Call Machine Error Int64 :=
  .ofFunction fun m =>
    let (text, result, input) := m.input.readWhile isNumeric
    (match result with
      | .ok () => .ok ((Decimal.int64? text).getD 0)
      | .error e => .error (.stream e),
      { m with input })

def onOutput (call : Call Sink Error Unit) : Call Machine Error Unit :=
  .onPart Machine.output (fun m output => { m with output }) call

def testValue : LoopTest → Call Machine Error Int64
  | .peek name => peek name
  | .register => return (← get).register

/-- Carries out an instruction that belongs to no loop. -/
def perform (instruction : Instruction) : Call Machine Error Unit := do
  match instruction with
  | .dequeue name =>
    let value ← take name
    modify (setRegister value)
  | .enqueue name => modify fun m => m.extend name [m.register]
  | .peek name =>
    let value ← peek name
    modify (setRegister value)
  | .length name => modify fun m => m.setRegister (.ofInt (m.queue name).size)
  | .add name =>
    let value ← take name
    modify fun m => m.setRegister (m.register + value)
  | .sub name =>
    let value ← take name
    modify fun m => m.setRegister (m.register - value)
  | .printNumber name =>
    let value ← peek name
    onOutput (Sink.writeNumber value)
  | .printChar name =>
    let value ← peek name
    onOutput (Sink.writeCode value.toInt)
  | .decrement => modify fun m => m.setRegister (m.register - 1)
  | .increment => modify fun m => m.setRegister (m.register + 1)
  | .readSigned =>
    let value ← readSigned
    modify (setRegister value)
  | .loop _ _ | .endLoop _ | .nop => pure ()

def goTo (pc : Nat) (m : Machine) : Machine := { m with pc }

def step : Call Machine Error Progress := do
  let m ← get
  match m.program[m.pc]? with
  | none => return .halt
  | some (.loop test stop) =>
    let value ← testValue test
    modify (goTo (if value = 0 then stop + 1 else m.pc + 1))
    return .proceed
  | some (.endLoop start) =>
    modify (goTo start)
    return .proceed
  | some instruction =>
    perform instruction
    modify (goTo (m.pc + 1))
    return .proceed

def load (source : String) : Call Machine SourceError Unit := do
  let program ← decode source.toList
  modify fun m => { m with program, pc := 0 }

def finish : Call Machine Error Unit :=
  .mapError .stream (.onPart Machine.output (fun m output => { m with output }) Sink.flush)

def interpreter : Interpreter Machine := { load, step, finish }

end Machine

end Esolang.Queue
