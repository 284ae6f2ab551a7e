import Esolang.Troop.Machine

/-! Steps of the Monkeys machine, case by case: it rests, a monkey that is asleep is told something, or
one that is awake acts. -/

namespace Esolang.Troop.Machine

variable {m : Machine} {instruction : Instruction}

theorem step_at_rest (h : m.code[m.pc]? = none ∨ m.board.bananas = []) :
    step.on m = (.ok .halt, m) := by
  rcases hc : m.code[m.pc]? with _ | instruction
  · simp [step, hc]
  · have hb : m.board.bananas = [] := h.resolve_left (by simp [hc])
    simp [step, hc, hb]

theorem step_on (hc : m.code[m.pc]? = some instruction) (hb : m.board.bananas ≠ []) :
    step.on m =
      match (execute instruction).on m with
      | (.error e, t) => (.error e, t)
      | (.ok _, t) => (.ok .proceed, { t with pc := t.pc + 1 }) := by
  rcases hx : (execute instruction).on m with ⟨_ | _, t⟩
  · simp [step, hc, hb, hx]
  · simp [step, hc, hb, hx]

/-- A step rests, or it carries out the instruction that the machine is at. -/
theorem step_cases (m : Machine) :
    step.on m = (.ok .halt, m) ∨
      ∃ instruction, m.code[m.pc]? = some instruction ∧ m.board.bananas ≠ [] ∧
        step.on m =
          match (execute instruction).on m with
          | (.error e, t) => (.error e, t)
          | (.ok _, t) => (.ok .proceed, { t with pc := t.pc + 1 }) := by
  rcases hc : m.code[m.pc]? with _ | instruction
  · exact .inl (step_at_rest (.inl hc))
  · by_cases hb : m.board.bananas = []
    · exact .inl (step_at_rest (.inr hb))
    · exact .inr ⟨instruction, rfl, hb, step_on hc hb⟩

theorem board_step (hc : m.code[m.pc]? = some instruction) (hb : m.board.bananas ≠ []) :
    (step.on m).2.board = ((execute instruction).on m).2.board := by
  rw [step_on hc hb]
  rcases (execute instruction).on m with ⟨_ | _, t⟩
  · rfl
  · rfl

theorem execute_asleep (hs : (m.board.monkey instruction.monkey).sleeping = true) :
    (execute instruction).on m =
      (.ok (), if instruction.action = .wake then m.changeMonkey instruction.monkey Board.wake
        else m) := by
  by_cases hw : instruction.action = .wake
  · simp [execute, hs, hw]
  · simp [execute, hs, hw]

theorem execute_awake (hs : (m.board.monkey instruction.monkey).sleeping = false) :
    (execute instruction).on m = (act instruction.monkey instruction.action).on m := by
  simp [execute, hs]

end Esolang.Troop.Machine
