import Esolang.Call
import Esolang.Error

/-! Interpreters and their runs. A run loads a source, prepares the machine, steps until it halts or
a limit stops it, and then finishes; it is defined over any four calls. -/

namespace Esolang

/-- What a step that succeeded tells about the next one. -/
inductive Progress where
  | proceed
  | halt
  deriving DecidableEq, Repr

structure Interpreter (σ : Type) where
  load : String → Call σ SourceError Unit
  prepare : Call σ Error Unit := pure ()
  step : Call σ Error Progress
  finish : Call σ Error Unit := pure ()

inductive Stop where
  | halted
  | stepLimit
  | cancelled
  deriving DecidableEq, Repr

structure Summary where
  /-- The steps after which the machine could take another one. -/
  steps : Nat
  stop : Stop
  deriving DecidableEq, Repr

structure Limits (σ : Type) where
  stepLimit : Option Nat := none
  cancelled : σ → Bool := fun _ => false

def Limits.reached {σ : Type} (limits : Limits σ) (steps : Nat) : Bool :=
  match limits.stepLimit with
  | some limit => limit ≤ steps
  | none => false

namespace Interpreter

variable {σ : Type} (machine : Interpreter σ) (limits : Limits σ)

/-- Steps until the machine halts or fails or a limit stops it; there is no result if the machine is
still running when the fuel is used up. `steps` counts the steps already taken. -/
def drive : (fuel steps : Nat) → σ → Option (Except Error Summary) × σ
  | 0, _, s => (none, s)
  | fuel + 1, steps, s =>
    if limits.cancelled s then (some (.ok ⟨steps, .cancelled⟩), s)
    else if limits.reached steps then (some (.ok ⟨steps, .stepLimit⟩), s)
    else
      match machine.step.on s with
      | (.ok .proceed, s) => drive fuel (steps + 1) s
      | (.ok .halt, s) => (some (.ok ⟨steps, .halted⟩), s)
      | (.error e, s) => (some (.error e), s)

/-- Finishes a machine whose steps have ended with a result. An error of a step comes before one of
finishing. -/
def conclude (result : Except Error Summary) (s : σ) : Except Error Summary × σ :=
  match result, machine.finish.on s with
  | .error e, (_, s) => (.error e, s)
  | .ok _, (.error e, s) => (.error e, s)
  | .ok summary, (.ok (), s) => (.ok summary, s)

/-- Loads a source and runs it; there is no result if the machine is still running when the fuel is
used up. -/
def runWithin (fuel : Nat) (source : String) (s : σ) : Option (Except Error Summary) × σ :=
  match (machine.load source).on s with
  | (.error e, s) => (some (.error (.source e)), s)
  | (.ok (), s) =>
    match machine.prepare.on s with
    | (.error e, s) => (some (.error e), s)
    | (.ok (), s) =>
      match machine.drive limits fuel 0 s with
      | (none, s) => (none, s)
      | (some result, s) =>
        let (result, s) := machine.conclude result s
        (some result, s)

/-- A run whose steps a 64-bit counter can count. -/
def run (source : String) (s : σ) : Option (Except Error Summary) × σ :=
  machine.runWithin limits UInt64.size source s

end Interpreter

end Esolang
