import Esolang.CommandLine.Process
import Esolang.Proofs.Language.Streams

/-! Machines at work between a standard input and an output, with an input flow beside them. What they do
depends on how the flow keeps pace with them, but not on what the output held before. -/

namespace Esolang.CommandLine.Process

variable {language : Language} {given earlier : List UInt8} {flow : Flow}

/-- A process with an output that held some bytes before. -/
def behind (earlier : List UInt8) (p : Process) : Process :=
  { p with machine := p.machine.behind earlier }

def Serves (language : Language) (given : List UInt8) (p : Process) : Prop :=
  p.machine.Serves language given

theorem call_tame {ε α : Type} {q : ε → Prop} {onMachine : Call Machine ε α}
    (h : onMachine.Tame (Machine.Serves language given) q (Machine.behind earlier)) :
    (call onMachine).Tame (Serves language given) q (behind earlier) :=
  h.onPart (fun _ hp => hp) (fun _ _ _ ht => ht) (fun _ => rfl) fun _ _ => rfl

theorem prepare_tame :
    prepare.Tame (Serves language given) Error.Running (behind earlier) := by
  refine (call_tame Machine.interpreter_tame.prepare).bind fun _ => .modify (fun _ hp => hp) fun p => ?_
  dsimp only [behind]
  rw [Machine.waiting_behind]

theorem step_tame (flow : Flow) :
    (step flow).Tame (Serves language given) Error.Running (behind earlier) := by
  refine Call.Tame.bind (.modify (fun _ hp => hp) fun _ => rfl) fun _ => ?_
  exact .get_bind (fun _ => rfl) fun p => call_tame (Machine.stepLacking_tame _)

theorem interpreter_tame :
    (interpreter flow).Tame (Serves language given) Error.Running (behind earlier) where
  load source := call_tame (Machine.interpreter_tame.load source)
  prepare := prepare_tame
  step := step_tame flow
  finish := call_tame Machine.interpreter_tame.finish

theorem leaves_behind (flow : Flow) (stdin : List UInt8) (p : Process) :
    (p.behind earlier).leaves flow stdin = p.leaves flow stdin := by
  have hpace : (p.behind earlier).readings + flow.pace (p.behind earlier).steps =
      p.readings + flow.pace p.steps := rfl
  have htaken : (p.behind earlier).machine.inputTaken = p.machine.inputTaken :=
    p.machine.inputTaken_behind
  have hunread : (p.behind earlier).machine.unreadBytes stdin.length =
      p.machine.unreadBytes stdin.length :=
    p.machine.unreadBytes_behind stdin.length
  rw [leaves, leaves, hpace, htaken, hunread]

/-- Only machines of My Unreliable Past have flows. -/
theorem leaves_of_ne {p : Process} (h : p.machine.language ≠ .myUnreliablePast) (flow : Flow)
    (stdin : List UInt8) : p.leaves flow stdin =
      leftOver stdin (stdin.length - p.machine.unreadBytes stdin.length) := by
  have htaken : p.machine.inputTaken = false := by
    obtain ⟨⟨_ | _ | _ | _ | _, state⟩, _, _, _⟩ := p
    case myUnreliablePast => exact absurd rfl h
    all_goals rfl
  rw [leaves, htaken]
  rfl

end Esolang.CommandLine.Process
