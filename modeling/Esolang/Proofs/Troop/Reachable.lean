import Esolang.Proofs.Run
import Esolang.Proofs.Troop.Layout
import Esolang.Proofs.Troop.Steps

/-! The Monkeys machine keeps everything on its board in its place. Only a monkey that is awake acts,
and a call that fails has changed no board. -/

namespace Esolang.Troop.Machine

variable {m : Machine}

/-- A machine on the first board or on the board that a text shows, whatever else it holds. -/
def Initial (m : Machine) : Prop := m.board = .start ∨ ∃ text, Board.ofText? text = some m.board

theorem Initial.sound (h : m.Initial) : m.board.Sound := by
  rcases h with h | ⟨text, h⟩
  · exact h ▸ Board.sound_start
  · exact Board.sound_of_ofText? h

theorem sound_setValue (h : m.board.Sound) (i : Fin 7) (value : UInt8) :
    (m.setValue i value).board.Sound := by
  have hm : (m.board.modify i fun monkey => { monkey with value }).Sound :=
    h.modify (fun _ => rfl) (fun _ _ hid => hid) fun _ hs => .inl hs
  exact hm

theorem sound_learn (h : m.board.Sound) (i : Fin 7) : ((learn i).on m).2.board.Sound := by
  rcases hr : Source.require.on m.input with ⟨_ | c, input⟩
  · simpa [learn, hr] using h
  · have hm : ({ m with input } : Machine).board.Sound := h
    simpa [learn, hr] using sound_setValue hm i (.ofNat c.toNat)

theorem sound_yell (h : m.board.Sound) (i : Fin 7) : ((yell i).on m).2.board.Sound := by
  simpa [yell] using h

theorem sound_act {i : Fin 7} (h : m.board.Sound) (hi : (m.board.monkey i).sleeping = false)
    (action : Action) : ((act i action).on m).2.board.Sound := by
  cases action with
  | up => exact h.move hi .up
  | down => exact h.move hi .down
  | left => exact h.move hi .left
  | right => exact h.move hi .right
  | learn => exact sound_learn h i
  | yell => exact sound_yell h i
  | play => exact sound_setValue h i _
  | sleep =>
    have hm : (m.board.modify i fun m => { m with sleeping := m.banana.isNone }).Sound := by
      apply h.modify
      · exact fun _ => rfl
      · exact fun _ _ hid => hid
      · intro monkey hs
        exact .inr (Option.isNone_iff_eq_none.mp hs)
    exact hm
  | wake => exact h
  | grab => exact h.grab hi
  | drop => exact h.release
  | eat => exact h.eat
  | mark =>
    have hm : (m.board.modify i fun monkey => { monkey with mark := some m.pc }).Sound :=
      h.modify (fun _ => rfl) (fun _ _ hid => hid) fun _ hs => .inl hs
    exact hm
  | back => exact h
  | teach => exact h.influence fun v a => v + a
  | fight => exact h.influence fun v a => v - a
  | bond => exact h.influence fun v a => v * a
  | ego => exact h.influence fun v a => if a = 0 then v else v / a

theorem sound_execute (h : m.board.Sound) (instruction : Instruction) :
    ((execute instruction).on m).2.board.Sound := by
  cases hs : (m.board.monkey instruction.monkey).sleeping with
  | true =>
    rw [execute_asleep hs]
    split
    · exact h.wake instruction.monkey
    · exact h
  | false =>
    rw [execute_awake hs]
    exact sound_act h hs instruction.action

theorem sound_step (h : m.board.Sound) : (step.on m).2.board.Sound := by
  rcases step_cases m with hm | ⟨instruction, hc, hb, -⟩
  · rwa [hm]
  · rw [board_step hc hb]
    exact sound_execute h instruction

theorem sound_of_reachable (h : interpreter.Reachable Initial m) : m.board.Sound := by
  induction h with
  | initial h => exact h.sound
  | load _ source ih => exact ih
  | prepare _ ih => exact ih
  | step _ ih => exact sound_step ih
  | finish _ ih => exact ih

/-- In every reachable state the board is sound, and no banana has two carriers. -/
theorem troop_stays_in_place (m : Machine) (h : interpreter.Reachable Initial m) :
    m.board.Sound ∧ ∀ (i j : Fin 7) (id : Nat), (m.board.monkey i).banana = some id →
      (m.board.monkey j).banana = some id → i = j := by
  have hs := sound_of_reachable h
  exact ⟨hs, fun i j id hi hj => hs.carrier_unique hi hj⟩

def afterGrab : Machine :=
  (interpreter.step.on
    { code := #[⟨⟨5, by decide⟩, .grab⟩], strict := false, rng := .ofSeed 0, input := .ofText [],
      output := {} }).2

theorem troop_in_place_after_grab :
    interpreter.Reachable Initial afterGrab ∧ (afterGrab.board.monkey 5).banana = some 12 ∧
      afterGrab.board.Sound ∧ ∀ (i j : Fin 7) (id : Nat),
        (afterGrab.board.monkey i).banana = some id →
          (afterGrab.board.monkey j).banana = some id → i = j := by
  have h : interpreter.Reachable Initial afterGrab := .step (.initial (.inl rfl))
  exact ⟨h, by decide, troop_stays_in_place afterGrab h⟩

end Esolang.Troop.Machine
