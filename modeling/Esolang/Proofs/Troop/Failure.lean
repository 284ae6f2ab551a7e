import Esolang.Proofs.Invariant
import Esolang.Proofs.Stream.Forward
import Esolang.Proofs.Troop.Steps

/-! What failing instructions of the Monkeys machine leave. Only learning and yelling can fail, and a
monkey that fails in them has not changed. -/

namespace Esolang.Troop.Machine

variable {m t : Machine}

/-- Only the streams have been used. -/
def Spends (m : Machine) (_ : Error) (t : Machine) : Prop :=
  ∃ input output, t = { m with input, output } ∧ m.output.bytes <+: output.bytes

theorem learn_failsAs (i : Fin 7) : (learn i).FailsAs Spends := by
  apply Call.FailsAs.bind_modify
  intro m e t h
  obtain ⟨-, rfl⟩ := Prod.mk.inj h
  exact ⟨_, m.output, rfl, List.prefix_rfl⟩

theorem yell_failsAs (i : Fin 7) : (yell i).FailsAs Spends := by
  refine .get_bind fun m e t h => ?_
  obtain ⟨-, rfl⟩ := Prod.mk.inj h
  exact ⟨m.input, _, rfl, Sink.bytes_prefix_writeCode _ m.output⟩

theorem act_failsAs (i : Fin 7) (action : Action) : (act i action).FailsAs Spends := by
  cases action with
  | learn => exact learn_failsAs i
  | yell => exact yell_failsAs i
  | wake => exact .pure _
  | _ => exact .modify _

theorem execute_failsAs (instruction : Instruction) : (execute instruction).FailsAs Spends := by
  intro m e t h
  cases hs : (m.board.monkey instruction.monkey).sleeping with
  | true =>
    rw [execute_asleep hs] at h
    cases h
  | false =>
    rw [execute_awake hs] at h
    exact act_failsAs _ _ m e t h

theorem step_error {e : Error} (h : step.on m = (.error e, t)) : m.Spends e t := by
  rcases step_cases m with hm | ⟨instruction, -, -, hm⟩
  · rw [hm] at h
    cases h
  · rcases hx : (execute instruction).on m with ⟨d | _, u⟩
    · rw [hm, hx] at h
      obtain ⟨rfl, rfl⟩ : d = e ∧ u = t := by simpa using h
      exact execute_failsAs instruction m d u hx
    · rw [hm, hx] at h
      cases h

end Esolang.Troop.Machine
