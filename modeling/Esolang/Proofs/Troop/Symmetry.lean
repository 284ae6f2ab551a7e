import Mathlib.Data.List.Find
import Esolang.Proofs.Troop.Bananas

/-! Symmetries of the board. Mirrored or transposed, a sound board looks the same to every monkey that
is told to move the other way round: what is next to a cell, what touches it and what lies on it goes
along. So a program that is turned with its board runs as it did before. -/

namespace Esolang.Troop

/-- What mirroring left and right and exchanging rows and columns are composed to. -/
inductive Symmetry where
  | mirror
  | transposition
  | composed (first second : Symmetry)

namespace Symmetry

variable {a b : Cell}

def cell : Symmetry → Cell → Cell
  | mirror, c => ⟨size - 1 - c.x, c.y⟩
  | transposition, c => ⟨c.y, c.x⟩
  | composed s t, c => t.cell (s.cell c)

def direction : Symmetry → Direction → Direction
  | mirror, .left => .right
  | mirror, .right => .left
  | mirror, d => d
  | transposition, .up => .left
  | transposition, .left => .up
  | transposition, .down => .right
  | transposition, .right => .down
  | composed s t, d => t.direction (s.direction d)

theorem cell_onBoard (s : Symmetry) (h : a.OnBoard) : (s.cell a).OnBoard := by
  induction s generalizing a with
  | mirror => exact ⟨by simp only [cell, size]; omega, h.2⟩
  | transposition => exact ⟨h.2, h.1⟩
  | composed s t hs ht => exact ht (hs h)

theorem cell_injective (s : Symmetry) (ha : a.OnBoard) (hb : b.OnBoard) :
    s.cell a = s.cell b ↔ a = b := by
  induction s generalizing a b with
  | mirror =>
    obtain ⟨⟨xa, ya⟩, ⟨xb, yb⟩⟩ := a, b
    obtain ⟨hxa, -⟩ := ha
    obtain ⟨hxb, -⟩ := hb
    simp only [cell, size, Cell.mk.injEq] at hxa hxb ⊢
    omega
  | transposition =>
    obtain ⟨⟨xa, ya⟩, ⟨xb, yb⟩⟩ := a, b
    simp only [cell, Cell.mk.injEq]
    exact and_comm
  | composed s t hs ht => exact (ht (s.cell_onBoard ha) (s.cell_onBoard hb)).trans (hs ha hb)

theorem adjacent_cell (s : Symmetry) (ha : a.OnBoard) (hb : b.OnBoard) :
    (s.cell a).adjacent (s.cell b) = a.adjacent b := by
  induction s generalizing a b with
  | mirror =>
    obtain ⟨hxa, -⟩ := ha
    obtain ⟨hxb, -⟩ := hb
    have hab : size - 1 - a.x ≤ size - 1 - b.x + 1 ↔ b.x ≤ a.x + 1 := by omega
    have hba : size - 1 - b.x ≤ size - 1 - a.x + 1 ↔ a.x ≤ b.x + 1 := by omega
    rw [Bool.eq_iff_iff]
    simp only [Cell.adjacent, Bool.and_eq_true, decide_eq_true_eq]
    simp only [cell, hab, hba]
    tauto
  | transposition =>
    rw [Bool.eq_iff_iff]
    simp only [Cell.adjacent, Bool.and_eq_true, decide_eq_true_eq]
    simp only [cell]
    tauto
  | composed s t hs ht => exact (ht (s.cell_onBoard ha) (s.cell_onBoard hb)).trans (hs ha hb)

theorem next?_cell (s : Symmetry) (h : a.OnBoard) (d : Direction) :
    (s.cell a).next? (s.direction d) = (a.next? d).map s.cell := by
  induction s generalizing a d with
  | mirror =>
    obtain ⟨hx, -⟩ := h
    have hsize : size = 10 := rfl
    cases d with
    | up =>
      rw [Cell.next?, Option.map_if]
      rfl
    | down =>
      rw [Cell.next?, Option.map_if]
      rfl
    | left =>
      rw [Cell.next?, Option.map_if]
      refine ite_congr (propext ?_) (fun hlt => ?_) fun _ => rfl
      · simp only [cell]
        omega
      · simp only [cell, Option.some.injEq, Cell.mk.injEq, and_true]
        omega
    | right =>
      rw [Cell.next?, Option.map_if]
      refine ite_congr (propext ?_) (fun hlt => ?_) fun _ => rfl
      · simp only [cell]
        omega
      · simp only [cell, Option.some.injEq, Cell.mk.injEq, and_true]
        omega
  | transposition => cases d <;> (rw [Cell.next?, Option.map_if]; rfl)
  | composed s t hs ht =>
    have hfirst := ht (s.cell_onBoard h) (s.direction d)
    rw [hs h d, Option.map_map] at hfirst
    exact hfirst

def monkey (s : Symmetry) (m : Monkey) : Monkey := { m with cell := s.cell m.cell }

def banana (s : Symmetry) (b : Banana) : Banana := { b with cell := s.cell b.cell }

def board (s : Symmetry) (b : Board) : Board :=
  { monkeys := b.monkeys.map s.monkey, bananas := b.bananas.map s.banana }

@[simp] theorem monkey_board (s : Symmetry) (b : Board) (i : Fin 7) :
    (s.board b).monkey i = s.monkey (b.monkey i) :=
  Vector.getElem_map _ i.isLt

theorem board_modify {s : Symmetry} {b : Board} {i : Fin 7} {f g : Monkey → Monkey}
    (h : s.monkey (f (b.monkey i)) = g (s.monkey (b.monkey i))) :
    s.board (b.modify i f) = (s.board b).modify i g := by
  simp only [Board.modify, monkey_board, ← h]
  simp [board, Vector.map_set]

theorem board_bring (s : Symmetry) (id : Option Nat) (target : Cell) (b : Board) :
    s.board (b.bring id target) = (s.board b).bring id (s.cell target) := by
  simp only [Board.bring, board, List.map_map]
  congr 1
  apply List.map_congr_left
  intro banana _
  by_cases h : some banana.id = id <;> simp [Symmetry.banana, h]

theorem sound_board (s : Symmetry) {b : Board} (h : b.Sound) : (s.board b).Sound where
  standing i := by
    rw [monkey_board]
    exact s.cell_onBoard (h.standing i)
  apart i j hij := by
    rw [monkey_board, monkey_board] at hij
    exact h.apart i j ((s.cell_injective (h.standing i) (h.standing j)).mp hij)
  numbered := by
    have hids : (s.board b).bananas.map Banana.id = b.bananas.map Banana.id := List.map_map
    rw [hids]
    exact h.numbered
  lying banana hmem := by
    obtain ⟨old, hold, rfl⟩ := List.mem_map.mp hmem
    exact s.cell_onBoard (h.lying old hold)
  carried i id hid := by
    rw [monkey_board] at hid ⊢
    exact List.mem_map.mpr ⟨_, h.carried i id hid, rfl⟩
  resting i hs := by
    rw [monkey_board] at hs ⊢
    exact h.resting i hs

section Moves

variable {b : Board} {i j : Fin 7} {target : Cell}

theorem monkeyAt?_board (s : Symmetry) (h : b.Sound) (ht : target.OnBoard) :
    (s.board b).monkeyAt? (s.cell target) = b.monkeyAt? target := by
  ext j
  rw [(s.sound_board h).monkeyAt?_eq_some_iff, h.monkeyAt?_eq_some_iff, monkey_board]
  exact s.cell_injective (h.standing j) ht

theorem bananaAt?_board (s : Symmetry) (h : b.Sound) (ht : target.OnBoard) :
    (s.board b).bananaAt? (s.cell target) = b.bananaAt? target := by
  have hfind : (b.bananas.map s.banana).find? (·.cell = s.cell target) =
      (b.bananas.find? (·.cell = target)).map s.banana := by
    rw [List.find?_map]
    congr 1
    apply List.find?_congr
    intro banana hmem
    exact decide_eq_decide.mpr (s.cell_injective (h.lying banana hmem) ht)
  rw [Board.bananaAt?, board, hfind, Option.map_map]
  rfl

theorem hasNeighbour_board (s : Symmetry) (h : ∀ k, (b.monkey k).cell.OnBoard) :
    (s.board b).hasNeighbour i = b.hasNeighbour i := by
  unfold Board.hasNeighbour
  congr 1
  funext j
  rw [monkey_board, monkey_board]
  exact congrArg (j ≠ i && ·) (s.adjacent_cell (h i) (h j))

theorem board_walk (s : Symmetry) (h : b.Sound) (ht : target.OnBoard) :
    s.board (b.walk i target) = (s.board b).walk i (s.cell target) := by
  have hplaced : s.board (b.modify i fun m => { m with cell := target }) =
      (s.board b).modify i fun m => { m with cell := s.cell target } :=
    board_modify rfl
  have hstanding : ∀ k, ((b.modify i fun m => { m with cell := target }).monkey k).cell.OnBoard := by
    intro k
    rw [Board.monkey_modify]
    split
    · exact ht
    · exact h.standing k
  unfold Board.walk
  dsimp only
  -- Neighbours are looked for before the banana is brought along, on a board that need not be sound.
  rw [← hplaced, s.hasNeighbour_board hstanding, board_bring]
  by_cases hn : (b.modify i fun m => { m with cell := target }).hasNeighbour i = true
  · rw [if_pos hn, if_pos hn, monkey_board]
    rfl
  · have hrewarded : ∀ b : Board, s.board (b.modify i Board.reward) =
        (s.board b).modify i Board.reward := fun b => board_modify rfl
    rw [if_neg hn, if_neg hn, hrewarded, ← hrewarded, monkey_board]
    rfl

theorem board_handOver (s : Symmetry) (b : Board) (i j : Fin 7) :
    s.board (b.handOver i j) = (s.board b).handOver i j := by
  have hmodify : ∀ (banana : Option Nat) (k : Fin 7) (b : Board),
      s.board (b.modify k fun m => { m with banana }) =
        (s.board b).modify k fun m => { m with banana } :=
    fun banana k b => board_modify rfl
  unfold Board.handOver
  dsimp only
  rw [board_bring, board_bring, hmodify, hmodify, monkey_board, monkey_board]
  rfl

theorem board_bump (s : Symmetry) (b : Board) (i j : Fin 7) :
    s.board (b.bump i j) = (s.board b).bump i j := by
  have hreward : ∀ (k : Fin 7) (b : Board),
      s.board (b.modify k Board.reward) = (s.board b).modify k Board.reward :=
    fun k b => board_modify rfl
  unfold Board.bump
  simp only [apply_ite s.board, monkey_board, hreward, board_handOver]
  rw [board_modify (g := Board.wake) rfl]
  rfl

theorem board_move (s : Symmetry) (h : b.Sound) (i : Fin 7) (d : Direction) :
    s.board (b.move i d) = (s.board b).move i (s.direction d) := by
  unfold Board.move
  have hcell : ((s.board b).monkey i).cell = s.cell (b.monkey i).cell := by rw [monkey_board]; rfl
  rw [hcell, s.next?_cell (h.standing i)]
  cases hn : (b.monkey i).cell.next? d with
  | none => exact board_modify rfl
  | some target =>
    have ht : target.OnBoard := (h.standing i).next hn
    dsimp only [Option.map_some]
    rw [s.monkeyAt?_board h ht]
    cases b.monkeyAt? target with
    | none => exact s.board_walk h ht
    | some j => exact s.board_bump b i j

theorem board_influence (s : Symmetry) (h : b.Sound) (i : Fin 7) (f : UInt8 → UInt8 → UInt8) :
    s.board (b.influence i f) = (s.board b).influence i f := by
  apply Board.ext_monkey
  · intro k
    have hadjacent := s.adjacent_cell (h.standing i) (h.standing k)
    rw [monkey_board, Board.influence_spec, Board.influence_spec, apply_ite s.monkey, monkey_board,
      monkey_board]
    simp only [monkey, hadjacent]
  · rfl

theorem board_grab (s : Symmetry) (h : b.Sound) (i : Fin 7) :
    s.board (b.grab i) = (s.board b).grab i := by
  unfold Board.grab
  rw [apply_ite s.board, monkey_board]
  congr 1
  apply board_modify
  show _ = { s.monkey (b.monkey i) with banana := (s.board b).bananaAt? (s.cell (b.monkey i).cell) }
  rw [s.bananaAt?_board h (h.standing i)]
  rfl

theorem board_eat (s : Symmetry) (b : Board) (i : Fin 7) :
    s.board (b.eat i) = (s.board b).eat i := by
  unfold Board.eat
  have hbanana : ((s.board b).monkey i).banana = (b.monkey i).banana := by rw [monkey_board]; rfl
  rw [hbanana]
  cases (b.monkey i).banana with
  | none => rfl
  | some id =>
    have hdropped : s.board (b.modify i fun m => { m with banana := none }) =
        (s.board b).modify i fun m => { m with banana := none } :=
      board_modify rfl
    dsimp only
    rw [← hdropped]
    simp only [board, List.filter_map]
    rfl

end Moves

/-- A monkey that is told to move moves in the other direction; all other actions stay what they
are. -/
def action (s : Symmetry) : Action → Action
  | .up => (s.direction .up).action
  | .down => (s.direction .down).action
  | .left => (s.direction .left).action
  | .right => (s.direction .right).action
  | a => a

theorem action_eq_wake (s : Symmetry) {action : Action} : s.action action = .wake ↔ action = .wake := by
  have hmove : ∀ d : Direction, d.action ≠ .wake := by
    intro d
    cases d <;> decide
  cases action with
  | up => exact iff_of_false (hmove _) (by decide)
  | down => exact iff_of_false (hmove _) (by decide)
  | left => exact iff_of_false (hmove _) (by decide)
  | right => exact iff_of_false (hmove _) (by decide)
  | _ => exact Iff.rfl

def instruction (s : Symmetry) (i : Instruction) : Instruction :=
  { i with action := s.action i.action }

/-- The board is turned, and so is each instruction of the program. -/
def machine (s : Symmetry) (m : Machine) : Machine :=
  { m with board := s.board m.board, code := m.code.map s.instruction }

end Symmetry

namespace Machine

open Symmetry

variable {m : Machine}

theorem changeBoard_symmetric {s : Symmetry} {f g : Board → Board}
    (h : s.board (f m.board) = g (s.board m.board)) :
    (s.machine m).changeBoard g = s.machine (m.changeBoard f) := by
  simp only [changeBoard, machine, h]

theorem changeMonkey_symmetric {s : Symmetry} {i : Fin 7} {f g : Monkey → Monkey}
    (h : s.monkey (f (m.board.monkey i)) = g (s.monkey (m.board.monkey i))) :
    (s.machine m).changeMonkey i g = s.machine (m.changeMonkey i f) :=
  changeBoard_symmetric (board_modify h)

theorem move_symmetric (s : Symmetry) (h : m.board.Sound) (i : Fin 7) (d : Direction) :
    (act i (s.direction d).action).on (s.machine m) =
      (.ok (), s.machine (m.changeBoard (Board.move i d))) := by
  rw [act_move, ← changeBoard_symmetric (s.board_move h i d)]
  rfl

theorem setValue_symmetric (s : Symmetry) (i : Fin 7) (value : UInt8) (m : Machine) :
    (s.machine m).setValue i value = s.machine (m.setValue i value) :=
  changeMonkey_symmetric rfl

theorem learn_symmetric (s : Symmetry) (i : Fin 7) (m : Machine) :
    (learn i).on (s.machine m) = (((learn i).on m).1, s.machine ((learn i).on m).2) := by
  have hinput : (s.machine m).input = m.input := rfl
  rcases hr : Source.require.on m.input with ⟨e | c, input⟩
  · simp only [learn, Call.on_bind, Call.on_onPart, hinput, hr]
    rfl
  · simp only [learn, Call.on_bind, Call.on_onPart, hinput, hr]
    exact congrArg (Prod.mk _) (setValue_symmetric s i (.ofNat c.toNat) { m with input })

theorem act_symmetric (s : Symmetry) (h : m.board.Sound) (i : Fin 7) (action : Action) :
    (act i (s.action action)).on (s.machine m) =
      (((act i action).on m).1, s.machine ((act i action).on m).2) := by
  cases action with
  | up => exact move_symmetric s h i .up
  | down => exact move_symmetric s h i .down
  | left => exact move_symmetric s h i .left
  | right => exact move_symmetric s h i .right
  | learn => exact learn_symmetric s i m
  | yell => simp [act, Symmetry.action, yell, machine, monkey]
  | play =>
    refine congrArg (Prod.mk _) ?_
    show { (s.machine m).setValue i m.rng.byte.1 with rng := m.rng.byte.2 } = _
    rw [setValue_symmetric]
    rfl
  | sleep => exact congrArg (Prod.mk _) (changeMonkey_symmetric rfl)
  | wake => rfl
  | grab => exact congrArg (Prod.mk _) (changeBoard_symmetric (s.board_grab h i))
  | drop => exact congrArg (Prod.mk _) (changeMonkey_symmetric rfl)
  | eat => exact congrArg (Prod.mk _) (changeBoard_symmetric (s.board_eat m.board i))
  | mark => exact congrArg (Prod.mk _) (changeMonkey_symmetric rfl)
  | back =>
    have hmark : ((s.machine m).board.monkey i).mark = (m.board.monkey i).mark := by
      rw [machine, monkey_board]
      rfl
    refine congrArg (Prod.mk _) ?_
    rw [back, hmark]
    rfl
  | teach => exact congrArg (Prod.mk _) (changeBoard_symmetric (s.board_influence h i _))
  | fight => exact congrArg (Prod.mk _) (changeBoard_symmetric (s.board_influence h i _))
  | bond => exact congrArg (Prod.mk _) (changeBoard_symmetric (s.board_influence h i _))
  | ego => exact congrArg (Prod.mk _) (changeBoard_symmetric (s.board_influence h i _))

theorem execute_symmetric (s : Symmetry) (h : m.board.Sound) (instruction : Instruction) :
    (execute (s.instruction instruction)).on (s.machine m) =
      (((execute instruction).on m).1, s.machine ((execute instruction).on m).2) := by
  have hsleeping : ((s.machine m).board.monkey (s.instruction instruction).monkey).sleeping =
      (m.board.monkey instruction.monkey).sleeping := by
    rw [machine, monkey_board]
    rfl
  cases hs : (m.board.monkey instruction.monkey).sleeping with
  | true =>
    rw [execute_asleep hs, execute_asleep (hsleeping.trans hs)]
    by_cases hw : instruction.action = .wake
    · have hw' : (s.instruction instruction).action = .wake := congrArg s.action hw
      rw [if_pos hw, if_pos hw']
      exact congrArg (Prod.mk _) (changeMonkey_symmetric rfl)
    · have hw' : (s.instruction instruction).action ≠ .wake := mt s.action_eq_wake.mp hw
      rw [if_neg hw, if_neg hw']
  | false =>
    rw [execute_awake hs, execute_awake (hsleeping.trans hs)]
    exact act_symmetric s h instruction.monkey instruction.action

theorem step_symmetric (s : Symmetry) (h : m.board.Sound) :
    step.on (s.machine m) = ((step.on m).1, s.machine (step.on m).2) := by
  have hcode : (s.machine m).code[(s.machine m).pc]? = m.code[m.pc]?.map s.instruction :=
    Array.getElem?_map
  have hbananas : (s.machine m).board.bananas = [] ↔ m.board.bananas = [] := List.map_eq_nil_iff
  rcases hc : m.code[m.pc]? with _ | instruction
  · rw [hc] at hcode
    rw [step_at_rest (.inl hc), step_at_rest (.inl hcode)]
  · rw [hc] at hcode
    by_cases hb : m.board.bananas = []
    · rw [step_at_rest (.inr hb), step_at_rest (.inr (hbananas.mpr hb))]
    · rw [step_on hc hb, step_on hcode (mt hbananas.mp hb), execute_symmetric s h]
      rcases (execute instruction).on m with ⟨_ | _, t⟩
      · rfl
      · rfl

/-- By induction on the number of steps. -/
theorem after_symmetric (s : Symmetry) (h : m.board.Sound) (k : Nat) :
    interpreter.after k (s.machine m) = s.machine (interpreter.after k m) := by
  induction k with
  | zero => rfl
  | succ k ih =>
    have hstep := step_symmetric s (sound_after h k)
    rw [Interpreter.after, ih]
    exact congrArg Prod.snd hstep

/-- The turned program on the turned board goes on step by step as the program does on the board: with
the same results, at the same place, and with the same streams and the same generator. -/
theorem turned_programs_run_alike (s : Symmetry) (m : Machine) (h : m.board.Sound) (k : Nat) :
    (step.on (interpreter.after k (s.machine m))).1 = (step.on (interpreter.after k m)).1 ∧
      (interpreter.after k (s.machine m)).pc = (interpreter.after k m).pc ∧
      (interpreter.after k (s.machine m)).output = (interpreter.after k m).output ∧
      (interpreter.after k (s.machine m)).input = (interpreter.after k m).input ∧
      (interpreter.after k (s.machine m)).rng = (interpreter.after k m).rng ∧
      (interpreter.after k (s.machine m)).board = s.board (interpreter.after k m).board := by
  rw [after_symmetric s h, step_symmetric s (sound_after h k)]
  exact ⟨rfl, rfl, rfl, rfl, rfl, rfl⟩

theorem turned_picnic_runs_alike : picnic.board.Sound ∧
    (Symmetry.machine (.composed .mirror .transposition) picnic).code =
      #[⟨5, .grab⟩, ⟨5, .left⟩, ⟨5, .eat⟩] ∧
    (step.on (interpreter.after 2 (Symmetry.machine (.composed .mirror .transposition) picnic))).1 =
      .ok .proceed ∧
    ((interpreter.after 2 (Symmetry.machine (.composed .mirror .transposition) picnic)).board.monkey
      5).cell = ⟨6, 5⟩ := by
  have h : picnic.board.Sound := Board.sound_start
  obtain ⟨hresult, -, -, -, -, hboard⟩ :=
    turned_programs_run_alike (.composed .mirror .transposition) picnic h 2
  refine ⟨h, by decide +kernel, ?_, ?_⟩
  · rw [hresult]
    decide +kernel
  · rw [hboard]
    decide +kernel

end Machine

end Esolang.Troop
