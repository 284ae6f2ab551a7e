import Esolang.Chance
import Esolang.Interpreter
import Esolang.Ledger.Program
import Esolang.Stream.Sink
import Esolang.Stream.Source

/-! The machine of My Unreliable Past: registers that change by whole transactions, taken in turn
from a random one on, and two channels through which characters come and go by chance. -/

namespace Esolang.Ledger

structure Config where
  /-- The chance in each step that a waiting character is taken in. -/
  inputChance : Binary64 := .half
  /-- The chance in each step that a character is given out. -/
  outputChance : Binary64 := .half
  seed : Option UInt64 := none
  deriving DecidableEq, Repr

abbrev Registers := Vector Int64 24

def Registers.put (r : Register) (value : Int64) (registers : Registers) : Registers :=
  registers.set r value

theorem Registers.get_put (r q : Register) (value : Int64) (registers : Registers) :
    (Registers.put r value registers).get q = if r = q then value else registers.get q := by
  show (registers.set r.val value)[q.val] = if r = q then value else registers[q.val]
  simp [Vector.getElem_set, Fin.ext_iff]

/-- The streams behind the channels. While the flows run, the characters that the input flow has
read wait at the input channel and the output belongs to the output flow. -/
inductive Channels where
  | closed (input : Option Source) (output : Sink)
  | flowing (waiting : List Char) (output : Sink)
  deriving DecidableEq

namespace Channels

def output? : Channels → Option Sink
  | .closed _ output => some output
  | .flowing _ _ => none

/-- Everything that has been written, whoever has the output. -/
def sink : Channels → Sink
  | .closed _ output => output
  | .flowing _ output => output

def waiting : Channels → List Char
  | .closed _ _ => []
  | .flowing waiting _ => waiting

/-- Whether the input has been handed to an input flow. -/
def inputTaken : Channels → Bool
  | .closed (some _) _ => false
  | _ => true

/-- Starts the flows. The first input flow reads the input up to its end or to the first failure;
there is no input for later ones. -/
def start : Channels → Channels
  | .closed (some input) output => .flowing input.readAll.1 output
  | .closed none output => .flowing [] output
  | .flowing waiting output => .flowing waiting output

/-- Stops the flows; characters that still wait are lost. -/
def stop : Channels → Channels
  | .closed input output => .closed input output
  | .flowing _ output => .closed none output

/-- Hands a character to the output flow, which drops it if it cannot be written. -/
def send (c : Char) : Channels → Channels
  | .closed input output => .closed input output
  | .flowing waiting output =>
    .flowing waiting ((Sink.write (String.utf8EncodeChar c)).on output).2

/-- What a step finds when only so many of the waiting characters have arrived. -/
def arrived (count : Nat) : Channels → Channels
  | .closed input output => .closed input output
  | .flowing waiting output => .flowing (waiting.take count) output

/-- Characters that arrive later wait behind the others. -/
def join (late : List Char) : Channels → Channels
  | .closed input output => .closed input output
  | .flowing waiting output => .flowing (waiting ++ late) output

end Channels

structure Machine where
  transactions : Array Transaction := #[]
  counter : Nat := 0
  registers : Registers := Vector.replicate 24 0
  inputChance : Chance
  outputChance : Chance
  rng : Rng
  channels : Channels
  deriving DecidableEq

/-- The registers after a command, unless it asks to undo the transaction. -/
def Command.effect? (registers : Registers) (c : Command) : Option Registers :=
  let value := registers.get c.register
  match c.operator with
  | .add => some (Registers.put c.register (value + c.operand) registers)
  | .sub => some (Registers.put c.register (value - c.operand) registers)
  | .expect => if value = c.operand then some registers else none

/-- The registers after all commands of a transaction, or unchanged if one of them undoes it. -/
def Transaction.effect (t : Transaction) (registers : Registers) : Registers :=
  (t.foldlM Command.effect? registers).getD registers

/-- Counts the coins flipped before the first one that shows heads, up to a bound at which no more
are flipped. -/
def tails : (bound : Nat) → Rng → Nat × Rng
  | 0, g => (0, g)
  | bound + 1, g =>
    let (heads, g) := g.coin
    if heads then (0, g)
    else
      let (count, g) := tails bound g
      (count + 1, g)

def maxDoublings : Nat := 62

/-- A random start value: as many binary digits as coins that showed tails. -/
def randomValue (g : Rng) : Int64 × Rng :=
  match tails maxDoublings g with
  | (0, g) => (0, g)
  | (count + 1, g) =>
    let (offset, g) := g.below (1 <<< count)
    (.ofNat (1 <<< count + offset), g)

def randomRegisters (g : Rng) : Registers × Rng :=
  Fin.foldl 24
    (fun (registers, g) (r : Register) =>
      let (value, g) := randomValue g
      (Registers.put r value registers, g))
    (Vector.replicate 24 0, g)

namespace Machine

/-- A machine whose generator is seeded by the setting, or else by `entropy`. -/
def ofConfig (config : Config) (entropy : UInt64) (input : Source) (output : Sink) :
    Except Error Machine :=
  match Chance.ofBinary64? config.inputChance, Chance.ofBinary64? config.outputChance with
  | none, _ => .error (.config (.chance .input config.inputChance))
  | some _, none => .error (.config (.chance .output config.outputChance))
  | some inputChance, some outputChance =>
    .ok
      { inputChance, outputChance
        rng := .ofSeed (config.seed.getD entropy)
        channels := .closed (some input) output }

def register? (name : Char) (m : Machine) : Option Int64 :=
  (Register.ofName? name).map m.registers.get

def setRegister (r : Register) (value : Int64) (m : Machine) : Machine :=
  { m with registers := Registers.put r value m.registers }

/-- Gives the character in the output register out by chance. A register that holds no character
code is left as it is. -/
def emit : Call Machine Error Unit := do
  let m ← get
  match m.channels with
  | .closed _ _ => pure ()
  | .flowing _ _ =>
    let value := m.registers.get Register.output
    if value ≠ 0 then
      let (fires, rng) := m.outputChance.draw m.rng
      modify fun m => { m with rng }
      if fires then
        match scalar? (value.toInt - 1) with
        | none => throw (.fault (.invalidCharacter (value.toInt - 1)))
        | some c => modify fun m => { m.setRegister .output 0 with channels := m.channels.send c }

/-- Takes a waiting character into the input register by chance. -/
def receive (m : Machine) : Machine :=
  match m.channels with
  | .closed _ _ => m
  | .flowing waiting output =>
    if m.registers.get Register.input = 0 then
      let (fires, rng) := m.inputChance.draw m.rng
      match fires, waiting with
      | true, c :: waiting =>
        { m.setRegister .input (.ofInt (c.toNat + 1)) with
          rng, channels := .flowing waiting output }
      | _, _ => { m with rng }
    else m

def step : Call Machine Error Progress := do
  let m ← get
  match m.transactions[m.counter]? with
  | none => return .halt
  | some transaction =>
    modify fun m => { m with registers := transaction.effect m.registers }
    emit
    modify receive
    modify fun m => { m with counter := (m.counter + 1) % m.transactions.size }
    return .proceed

def within (count : Nat) (m : Machine) : Machine := { m with channels := m.channels.arrived count }

def join (late : List Char) (m : Machine) : Machine := { m with channels := m.channels.join late }

/-- A step by the time of which so many of the waiting characters have arrived. -/
def stepWith (count : Nat) : Call Machine Error Progress :=
  .onPart (within count) (fun m u => u.join (m.channels.waiting.drop count)) step

/-- A step by the time of which the last so many of the waiting characters have not arrived. -/
def stepLacking : (lacking : Nat) → Call Machine Error Progress
  | 0 => step
  | lacking + 1 => do
    let m ← get
    stepWith (m.channels.waiting.length - (lacking + 1))

def load (source : String) : Call Machine SourceError Unit := do
  let transactions ← parse source.toList
  modify fun m => { m with transactions := transactions.toArray, counter := 0 }

def closeChannels (m : Machine) : Machine := { m with channels := m.channels.stop }

def randomize (m : Machine) : Machine :=
  let (registers, rng) := randomRegisters m.rng
  { m with registers, rng }

/-- Chooses the first transaction and starts the flows, if there is any transaction. -/
def openChannels (m : Machine) : Machine :=
  if m.transactions.isEmpty then m
  else
    let (counter, rng) := m.rng.below m.transactions.size
    { m with counter, rng, channels := m.channels.start }

def prepare : Call Machine Error Unit := modify fun m => m.closeChannels.randomize.openChannels

def finish : Call Machine Error Unit := modify closeChannels

def interpreter : Interpreter Machine := { load, prepare, step, finish }

end Machine

end Esolang.Ledger
