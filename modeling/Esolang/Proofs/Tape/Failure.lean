import Esolang.Proofs.Invariant
import Esolang.Proofs.Stream.Forward
import Esolang.Tape.Machine

/-! What failing instructions of the Brainfuck machine leave: a cell that leaves the carrier is not
stored, and of a character that cannot be read or written nothing is kept. -/

namespace Esolang.Tape.Machine

variable {m t : Machine}

/-- Only the streams have been used. -/
def Spends (m : Machine) (_ : Error) (t : Machine) : Prop :=
  ∃ input output, t = { m with input, output } ∧ m.output.bytes <+: output.bytes

theorem adjust_failsAs (delta : Int) : (adjust delta).FailsAs Spends := by
  refine .get_bind fun m e t h => ?_
  cases hv : m.width.add m.current delta with
  | none =>
    obtain ⟨-, rfl⟩ : Error.fault .cellOverflow = e ∧ m = t := by simpa [hv] using h
    exact ⟨m.input, m.output, rfl, List.prefix_rfl⟩
  | some value => simp [hv] at h

theorem writeCode_failsAs (code : Int) : (writeCode code).FailsAs Spends := by
  intro m e t h
  obtain ⟨-, rfl⟩ := Prod.mk.inj h
  exact ⟨m.input, _, rfl, Sink.bytes_prefix_writeCode code m.output⟩

theorem readCharacter_failsAs : readCharacter.FailsAs Spends := by
  intro m e t h
  obtain ⟨-, rfl⟩ := Prod.mk.inj h
  exact ⟨_, m.output, rfl, List.prefix_rfl⟩

theorem execute_failsAs (instruction : Char) : (execute instruction).FailsAs Spends := by
  unfold execute
  split
  · exact .modify _
  · exact .modify _
  · exact adjust_failsAs 1
  · exact adjust_failsAs (-1)
  · exact .get_bind fun m => writeCode_failsAs m.current m
  · exact readCharacter_failsAs.bind_modify _
  · exact .modify _
  · exact .modify _
  · exact .pure _

theorem step_error {e : Error} (h : step.on m = (.error e, t)) : m.Spends e t := by
  rcases hc : m.code[m.ip]? with _ | instruction
  · simp [step, hc] at h
  · rcases hx : (execute instruction).on m with ⟨d | _, u⟩
    · obtain ⟨rfl, rfl⟩ : d = e ∧ u = t := by simpa [step, hc, hx] using h
      exact execute_failsAs instruction m d u hx
    · simp [step, hc, hx] at h

end Esolang.Tape.Machine
