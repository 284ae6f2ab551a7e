import Esolang.Grid.Machine
import Esolang.Language.Selection
import Esolang.Ledger.Machine
import Esolang.Queue.Machine
import Esolang.Tape.Machine
import Esolang.Troop.Machine

/-! The supported languages: the name, the file extension, the machine and the settings of each, and
machines of any of them behind one interpreter. -/

namespace Esolang

inductive Language where
  | abcr
  | befunge
  | brainfuck
  | monkeys
  | myUnreliablePast
  deriving DecidableEq, Repr

/-- The settings of all machines. ABCR has nothing to set. -/
structure Settings where
  tape : Tape.Config := {}
  grid : Grid.Config := {}
  ledger : Ledger.Config := {}
  troop : Troop.Config := {}
  deriving DecidableEq, Repr

def Settings.withSeed (seed : UInt64) (settings : Settings) : Settings :=
  { settings with
    grid := { settings.grid with seed := some seed }
    ledger := { settings.ledger with seed := some seed }
    troop := { settings.troop with seed := some seed } }

namespace Language

def all : List Language := [abcr, befunge, brainfuck, monkeys, myUnreliablePast]

def name : Language → String
  | abcr => "ABCR"
  | befunge => "Befunge"
  | brainfuck => "Brainfuck"
  | monkeys => "Monkeys"
  | myUnreliablePast => "My Unreliable Past"

def extension : Language → String
  | abcr => ".abcr"
  | befunge => ".bf"
  | brainfuck => ".b"
  | monkeys => ".mky"
  | myUnreliablePast => ".past"

def entry (language : Language) : Entry Language :=
  { language := language.name, extension := language.extension, build := language }

def entries : List (Entry Language) := all.map entry

def State : Language → Type
  | abcr => Queue.Machine
  | befunge => Grid.Machine
  | brainfuck => Tape.Machine
  | monkeys => Troop.Machine
  | myUnreliablePast => Ledger.Machine

def interpreter : (language : Language) → Interpreter language.State
  | abcr => Queue.Machine.interpreter
  | befunge => Grid.Machine.interpreter
  | brainfuck => Tape.Machine.interpreter
  | monkeys => Troop.Machine.interpreter
  | myUnreliablePast => Ledger.Machine.interpreter

/-- A new machine between an input and an output. A machine without a seed takes `entropy`. -/
def newState (settings : Settings) (entropy : UInt64) (input : Source) (output : Sink) :
    (language : Language) → Except Error language.State
  | abcr => .ok ({ input, output } : Queue.Machine)
  | befunge => Grid.Machine.ofConfig settings.grid entropy output
  | brainfuck => Tape.Machine.ofConfig settings.tape input output
  | monkeys => .ok (Troop.Machine.ofConfig settings.troop entropy input output)
  | myUnreliablePast => Ledger.Machine.ofConfig settings.ledger entropy input output

def sinkOf : (language : Language) → language.State → Sink
  | abcr, m => Queue.Machine.output m
  | befunge, m => Grid.Machine.output m
  | brainfuck, m => Tape.Machine.output m
  | monkeys, m => Troop.Machine.output m
  | myUnreliablePast, m => (Ledger.Machine.channels m).sink

/-- How many of the input bytes given to a machine its steps have not read. Befunge reads none, and
My Unreliable Past leaves reading to its input flow. -/
def unreadBytes (given : Nat) : (language : Language) → language.State → Nat
  | abcr, m => (Queue.Machine.input m).bytes.length
  | befunge, _ => given
  | brainfuck, m => (Tape.Machine.input m).bytes.length
  | monkeys, m => (Troop.Machine.input m).bytes.length
  | myUnreliablePast, _ => given

/-- Whether the input has been handed to a flow that reads it beside the steps. -/
def inputTaken : (language : Language) → language.State → Bool
  | myUnreliablePast, m => (Ledger.Machine.channels m).inputTaken
  | _, _ => false

/-- How many characters an input flow has read, or is going to read, that no step has taken in. -/
def waiting : (language : Language) → language.State → Nat
  | myUnreliablePast, m => (Ledger.Machine.channels m).waiting.length
  | _, _ => 0

/-- A step by the time of which the last so many of the waiting characters have not arrived. -/
def stepLacking (lacking : Nat) : (language : Language) → Call language.State Error Progress
  | myUnreliablePast => Ledger.Machine.stepLacking lacking
  | language => language.interpreter.step

end Language

structure Machine where
  language : Language
  state : language.State

namespace Machine

def new (language : Language) (settings : Settings) (entropy : UInt64) (input : Source)
    (output : Sink) : Except Error Machine :=
  (language.newState settings entropy input output).map (⟨language, ·⟩)

def call {ε α : Type} (select : (language : Language) → Call language.State ε α) :
    Call Machine ε α :=
  .ofFunction fun m =>
    let (result, state) := (select m.language).on m.state
    (result, ⟨m.language, state⟩)

def interpreter : Interpreter Machine where
  load source := call fun language => language.interpreter.load source
  prepare := call fun language => language.interpreter.prepare
  step := call fun language => language.interpreter.step
  finish := call fun language => language.interpreter.finish

def stepLacking (lacking : Nat) : Call Machine Error Progress :=
  call fun language => language.stepLacking lacking

def sink (m : Machine) : Sink := m.language.sinkOf m.state

def unreadBytes (given : Nat) (m : Machine) : Nat := m.language.unreadBytes given m.state

def inputTaken (m : Machine) : Bool := m.language.inputTaken m.state

def waiting (m : Machine) : Nat := m.language.waiting m.state

end Machine

end Esolang
