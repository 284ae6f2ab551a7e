import Esolang.Interpreter
import Esolang.Random
import Esolang.Stream.Sink
import Esolang.Stream.Source
import Esolang.Troop.Board

/-! The machine of the Monkeys language: each instruction tells one monkey what to do, until the
program or the bananas run out. -/

namespace Esolang.Troop

structure Config where
  strict : Bool := false
  seed : Option UInt64 := none
  deriving DecidableEq, Repr

structure Machine where
  board : Board := .start
  code : Array Instruction := #[]
  pc : Nat := 0
  strict : Bool
  rng : Rng
  input : Source
  output : Sink
  deriving DecidableEq

namespace Machine

/-- A machine whose generator is seeded by the setting, or else by `entropy`. -/
def ofConfig (config : Config) (entropy : UInt64) (input : Source) (output : Sink) : Machine :=
  { strict := config.strict
    rng := .ofSeed (config.seed.getD entropy)
    input, output }

def withBoard (board : Board) (m : Machine) : Machine := { m with board }

def monkey? (m : Machine) (number : Nat) : Option Monkey :=
  (monkeyOfNumber? number).map m.board.monkey

def changeBoard (f : Board → Board) (m : Machine) : Machine := { m with board := f m.board }

def changeMonkey (i : Fin 7) (f : Monkey → Monkey) (m : Machine) : Machine :=
  m.changeBoard (Board.modify i f)

def setValue (i : Fin 7) (value : UInt8) (m : Machine) : Machine :=
  m.changeMonkey i fun monkey => { monkey with value }

def play (i : Fin 7) (m : Machine) : Machine :=
  let (value, rng) := m.rng.byte
  { m.setValue i value with rng }

/-- Goes to the place that a monkey has marked, if it has marked one. -/
def back (i : Fin 7) (m : Machine) : Machine :=
  { m with pc := (m.board.monkey i).mark.getD m.pc }

/-- Gives a monkey the code of the next input character, modulo 256. -/
def learn (i : Fin 7) : Call Machine Error Unit := do
  let c ← Call.onPart Machine.input (fun m input => { m with input }) Source.require
  modify (setValue i (.ofNat c.toNat))

def yell (i : Fin 7) : Call Machine Error Unit := do
  let m ← get
  Call.onPart Machine.output (fun m output => { m with output })
    (Sink.writeCode (m.board.monkey i).value.toNat)

def act (i : Fin 7) : Action → Call Machine Error Unit
  | .up => modify (changeBoard (Board.move i .up))
  | .down => modify (changeBoard (Board.move i .down))
  | .left => modify (changeBoard (Board.move i .left))
  | .right => modify (changeBoard (Board.move i .right))
  | .learn => learn i
  | .yell => yell i
  | .play => modify (play i)
  | .sleep => modify (changeMonkey i fun m => { m with sleeping := m.banana.isNone })
  | .wake => pure ()
  | .grab => modify (changeBoard (Board.grab i))
  | .drop => modify (changeMonkey i fun m => { m with banana := none })
  | .eat => modify (changeBoard (Board.eat i))
  | .mark => modify fun m => m.changeMonkey i fun monkey => { monkey with mark := some m.pc }
  | .back => modify (back i)
  | .teach => modify (changeBoard (Board.influence i fun v a => v + a))
  | .fight => modify (changeBoard (Board.influence i fun v a => v - a))
  | .bond => modify (changeBoard (Board.influence i fun v a => v * a))
  | .ego => modify (changeBoard (Board.influence i fun v a => if a = 0 then v else v / a))

/-- Carries out an instruction. A monkey that is asleep only wakes up. -/
def execute (instruction : Instruction) : Call Machine Error Unit := do
  let m ← get
  if (m.board.monkey instruction.monkey).sleeping then
    if instruction.action = .wake then modify (changeMonkey instruction.monkey Board.wake)
  else
    act instruction.monkey instruction.action

def step : Call Machine Error Progress := do
  let m ← get
  match m.code[m.pc]? with
  | none => return .halt
  | some instruction =>
    if m.board.bananas.isEmpty then
      return .halt
    else
      execute instruction
      modify fun m => { m with pc := m.pc + 1 }
      return .proceed

def load (source : String) : Call Machine SourceError Unit :=
  modify fun m => { m with code := (parse m.strict source.toList).toArray, pc := 0 }

def finish : Call Machine Error Unit :=
  .mapError .stream (.onPart Machine.output (fun m output => { m with output }) Sink.flush)

def interpreter : Interpreter Machine := { load, step, finish }

end Machine

end Esolang.Troop
