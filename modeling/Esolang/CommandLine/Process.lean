import Esolang.Language.Basic

/-! Programs that run on a standard input which others are to read after them. Each program takes it in
whole chunks. Most programs read in their steps; the input flow of My Unreliable Past reads beside them,
at a pace of its own, until it finds at its next look that the program has ended. -/

namespace Esolang.CommandLine

/-- How many bytes a program takes from standard input at a time. -/
def chunk : Nat := 8192

/-- How many chunks hold so many bytes. -/
def chunks (bytes : Nat) : Nat := (bytes + chunk - 1) / chunk

/-- The bytes of standard input that a program leaves, having used some: it takes whole chunks. -/
def leftOver (stdin : List UInt8) (used : Nat) : List UInt8 := stdin.drop (chunks used * chunk)

/-- What becomes of an input flow beside a program. Nothing ties it to the steps. -/
structure Flow where
  /-- How many readings the flow makes behind so many steps, in front of the next step or of the end. -/
  pace : Nat → Nat
  /-- The program may end between a look of the flow at the stop flag and its next reading. The flow then
  reads once more, behind so many chunks that later programs take. -/
  late : Option Nat := none

namespace Flow

/-- A flow that makes so many readings before the first step, and no other one. -/
def prompt (readings : Nat) : Flow where
  pace
    | 0 => readings
    | _ + 1 => 0

/-- How many chunks of standard input so many readings take. -/
def taken (stdin : List UInt8) (readings : Nat) : Nat :=
  chunks (stdin.length - (Source.skip readings { bytes := stdin }).bytes.length)

/-- The bytes of standard input that a flow leaves to later programs, having made so many readings when
the program ends. A chunk that it takes behind some others is missing between them. -/
def leaves (flow : Flow) (stdin : List UInt8) (readings : Nat) : List UInt8 :=
  let rest := stdin.drop (taken stdin readings * chunk)
  match flow.late with
  | none => rest
  | some earlier =>
    let more := taken stdin (readings + 1) - taken stdin readings
    rest.take (earlier * chunk) ++ rest.drop ((earlier + more) * chunk)

end Flow

/-- A machine at work, which may have an input flow beside it. -/
structure Process where
  machine : Machine
  steps : Nat := 0
  /-- How many readings the input flow has made. -/
  readings : Nat := 0
  /-- How many characters the input flow would read if it went on to the end. -/
  characters : Nat := 0

namespace Process

def call {ε α : Type} (onMachine : Call Machine ε α) : Call Process ε α :=
  .onPart machine (fun p machine => { p with machine }) onMachine

def prepare : Call Process Error Unit := do
  call Machine.interpreter.prepare
  modify fun p => { p with characters := p.machine.waiting }

/-- Makes a step when the flow has done what it does in front of it. -/
def step (flow : Flow) : Call Process Error Progress := do
  modify fun p => { p with steps := p.steps + 1, readings := p.readings + flow.pace p.steps }
  let p ← get
  call (Machine.stepLacking (p.characters - p.readings))

def interpreter (flow : Flow) : Interpreter Process where
  load source := call (Machine.interpreter.load source)
  prepare := prepare
  step := step flow
  finish := call Machine.interpreter.finish

/-- What a program leaves of the standard input that it was given. -/
def leaves (flow : Flow) (stdin : List UInt8) (p : Process) : List UInt8 :=
  if p.machine.inputTaken then flow.leaves stdin (p.readings + flow.pace p.steps)
  else leftOver stdin (stdin.length - p.machine.unreadBytes stdin.length)

end Process

end Esolang.CommandLine
