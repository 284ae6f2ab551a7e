import Esolang.Language.Basic
import Esolang.Proofs.Course
import Esolang.Proofs.Grid.Division
import Esolang.Proofs.Ledger.Emission
import Esolang.Proofs.Queue.Structured
import Esolang.Proofs.Troop.Steps

/-! Halts, in any language. A step that halts is one that does nothing else, so a machine that has
halted stays where it is, and a run can be cut anywhere. -/

namespace Esolang

theorem Queue.Machine.step_halt {m t : Queue.Machine} (h : step.on m = (.ok .halt, t)) : t = m := by
  rcases hc : m.program[m.pc]? with _ | instruction
  · obtain rfl : m = t := by simpa [step, hc] using h
    rfl
  · by_cases hl : ∃ test stop, instruction = .loop test stop
    · obtain ⟨test, stop, rfl⟩ := hl
      rw [step_loop hc] at h
      split at h <;> cases h
    · by_cases he : ∃ start, instruction = .endLoop start
      · obtain ⟨start, rfl⟩ := he
        rw [step_endLoop hc] at h
        cases h
      · rw [step_other (fun test stop h => hl ⟨test, stop, h⟩) (fun start h => he ⟨start, h⟩) hc] at h
        split at h <;> cases h

theorem Grid.Machine.step_halt {m t : Grid.Machine} (h : step.on m = (.ok .halt, t)) : t = m := by
  rw [step_on] at h
  split at h
  · cases h
  · split at h
    · exact (Prod.mk.inj h).2.symm
    · split at h <;> cases h

theorem Tape.Machine.step_halt {m t : Tape.Machine} (h : step.on m = (.ok .halt, t)) : t = m := by
  rcases hc : m.code[m.ip]? with _ | instruction
  · obtain rfl : m = t := by simpa [step, hc] using h
    rfl
  · rcases hx : (execute instruction).on m with ⟨_ | _, u⟩
    · simp [step, hc, hx] at h
    · simp [step, hc, hx] at h

theorem Troop.Machine.step_halt {m t : Troop.Machine} (h : step.on m = (.ok .halt, t)) : t = m := by
  rcases step_cases m with hm | ⟨instruction, -, -, hm⟩
  · rw [hm] at h
    exact (Prod.mk.inj h).2.symm
  · rw [hm] at h
    split at h <;> cases h

theorem Ledger.Machine.step_halt {m t : Ledger.Machine} (h : step.on m = (.ok .halt, t)) :
    t = m := by
  rcases ht : m.transactions[m.counter]? with _ | transaction
  · obtain rfl : m = t := by simpa [step, ht] using h
    rfl
  · rw [step_on ht] at h
    split at h <;> cases h

namespace Language

variable {l : Language}

theorem step_halt {s t : l.State} (h : l.interpreter.step.on s = (.ok .halt, t)) : t = s := by
  cases l with
  | abcr => exact Queue.Machine.step_halt h
  | befunge => exact Grid.Machine.step_halt h
  | brainfuck => exact Tape.Machine.step_halt h
  | monkeys => exact Troop.Machine.step_halt h
  | myUnreliablePast => exact Ledger.Machine.step_halt h

/-- Driving a machine under two limits one after the other is driving it under their sum: if the first
drive stops at its limit, the second one goes on, and its steps are added; if the first one halts or
fails, so does the drive under the sum, with the same result and in the same state. A step that halts
leaves the machine as it is, and so does every later step, which halts as well. -/
theorem runs_can_be_cut (l : Language) (s : l.State) :
    (∀ m n : Nat, ∃ first t, l.interpreter.Drives m s first t ∧
      ((first = .ok ⟨m, .stepLimit⟩ ∧ ∃ second u, l.interpreter.Drives n t second u ∧
          l.interpreter.Drives (m + n) s
            (second.map fun summary => { summary with steps := m + summary.steps }) u) ∨
        ((∃ steps, first = .ok ⟨steps, .halted⟩) ∨ ∃ e, first = .error e) ∧
          l.interpreter.Drives (m + n) s first t)) ∧
    ∀ t, l.interpreter.step.on s = (.ok .halt, t) → t = s ∧
      ∀ k, l.interpreter.after k t = t ∧
        l.interpreter.step.on (l.interpreter.after k t) = (.ok .halt, t) := by
  refine ⟨fun m n => l.interpreter.drives_cut m n s, fun t h => ?_⟩
  obtain rfl := step_halt h
  refine ⟨rfl, fun k => ?_⟩
  have hafter : l.interpreter.after k t = t :=
    l.interpreter.after_of_fixed (by rw [h]) k
  exact ⟨hafter, by rw [hafter, h]⟩

end Language

end Esolang
