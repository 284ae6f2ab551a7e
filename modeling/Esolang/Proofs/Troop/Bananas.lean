import Esolang.Proofs.Course
import Esolang.Proofs.Troop.Reachable

/-! What becomes of the bananas of the Monkeys machine. A step eats one, takes one along with a monkey
that walks, hands one over, or leaves them all alone; and whatever it does, it does to one banana
only, since no two have the same id. -/

namespace Esolang.Troop

/-- The action by which a monkey moves in a direction. -/
def Direction.action : Direction → Action
  | .up => .up
  | .down => .down
  | .left => .left
  | .right => .right

namespace Board

variable {b : Board} {i j : Fin 7} {id : Nat} {old cell : Cell}

def ids (b : Board) : List Nat := b.bananas.map Banana.id

theorem ids_eat (h : b.Sound) (hb : (b.monkey i).banana = some id) :
    (b.eat i).ids = b.ids.erase id := by
  have hbananas : (b.eat i).bananas = b.bananas.filter (·.id ≠ id) := by simp [eat, hb, modify]
  rw [ids, hbananas, ids, h.numbered.erase_eq_filter, List.filter_map]
  congr 1
  apply List.filter_congr
  intro banana _
  rw [Bool.eq_iff_iff]
  simp

theorem cell_of_bring (h : b.Sound) {meant : Option Nat} {target : Cell}
    (hold : ⟨id, old⟩ ∈ b.bananas) (hnow : ⟨id, cell⟩ ∈ (b.bring meant target).bananas) :
    cell = if some id = meant then target else old := by
  obtain ⟨before, hbefore, hcell⟩ := mem_bring.mp hnow
  rwa [h.cell_eq hold hbefore]

/-- Only what the walker carries comes along. -/
theorem moved_by_walk (h : b.Sound) (hold : ⟨id, old⟩ ∈ b.bananas) {target : Cell}
    (hnow : ⟨id, cell⟩ ∈ (b.walk i target).bananas) (hne : cell ≠ old) :
    (b.monkey i).banana = some id ∧ cell = target := by
  rw [bananas_walk] at hnow
  have hcell := cell_of_bring h hold hnow
  by_cases hid : some id = (b.monkey i).banana
  · rw [if_pos hid] at hcell
    exact ⟨hid.symm, hcell⟩
  · rw [if_neg hid] at hcell
    exact absurd hcell hne

/-- Only what one of the two carries goes over, to where the other one is. -/
theorem moved_by_handOver (h : b.Sound) (hij : i ≠ j) (hold : ⟨id, old⟩ ∈ b.bananas)
    (hnow : ⟨id, cell⟩ ∈ (b.handOver i j).bananas) (hne : cell ≠ old) :
    ((b.monkey i).banana = some id ∧ cell = (b.monkey j).cell) ∨
      (b.monkey j).banana = some id ∧ cell = (b.monkey i).cell := by
  obtain ⟨-, -, -, hbananas⟩ := handOver_spec hij b
  rw [hbananas] at hnow
  obtain ⟨between, hbetween, hcell⟩ := mem_bring.mp hnow
  have hfirst := cell_of_bring h hold hbetween
  by_cases hmine : some id = (b.monkey i).banana
  · rw [if_pos hmine] at hcell
    exact .inl ⟨hmine.symm, hcell⟩
  · rw [if_neg hmine] at hcell
    by_cases htheirs : some id = (b.monkey j).banana
    · rw [if_pos htheirs] at hfirst
      exact .inr ⟨htheirs.symm, hcell.trans hfirst⟩
    · rw [if_neg htheirs] at hfirst
      exact absurd (hcell.trans hfirst) hne

theorem ids_walk (i : Fin 7) (target : Cell) (b : Board) : (b.walk i target).ids = b.ids := by
  rw [ids, bananas_walk, ids_bring, ids]

theorem ids_handOver (hij : i ≠ j) (b : Board) : (b.handOver i j).ids = b.ids := by
  obtain ⟨-, -, -, hbananas⟩ := handOver_spec hij b
  rw [ids, hbananas, ids_bring, ids_bring, ids]

end Board

namespace Machine

variable {m t : Machine} {b : Board} {i j : Fin 7} {id : Nat} {cell : Cell}

theorem act_move (i : Fin 7) (d : Direction) :
    act i d.action = modify (changeBoard (Board.move i d)) := by
  cases d <;> rfl

/-- The banana that the next step eats: it tells a monkey to eat that is awake and carries one. -/
def eaten? (m : Machine) : Option Nat :=
  match m.code[m.pc]? with
  | some ⟨i, .eat⟩ => if (m.board.monkey i).sleeping then none else (m.board.monkey i).banana
  | _ => none

/-- The next step tells a monkey to move that is awake. -/
def Moves (m : Machine) (i : Fin 7) (direction : Direction) : Prop :=
  m.code[m.pc]? = some ⟨i, direction.action⟩ ∧ (m.board.monkey i).sleeping = false

/-- The next step takes a monkey to a free cell beside it. -/
def Walks (m : Machine) (i : Fin 7) (cell : Cell) : Prop :=
  ∃ direction, m.Moves i direction ∧ (m.board.monkey i).cell.next? direction = some cell ∧
    ∀ k, (m.board.monkey k).cell ≠ cell

/-- In the next step a monkey runs into one beside it that is awake, and just one of the two carries a
banana. -/
def Meets (m : Machine) (i j : Fin 7) : Prop :=
  ∃ direction, m.Moves i direction ∧
    (m.board.monkey i).cell.next? direction = some (m.board.monkey j).cell ∧
    (m.board.monkey j).sleeping = false ∧
    (m.board.monkey i).banana.isSome ≠ (m.board.monkey j).banana.isSome

theorem eaten?_eq_some_iff : m.eaten? = some id ↔
    ∃ i, m.code[m.pc]? = some ⟨i, .eat⟩ ∧ (m.board.monkey i).sleeping = false ∧
      (m.board.monkey i).banana = some id := by
  rw [eaten?]
  split
  · next i hc =>
    rw [hc]
    by_cases hs : (m.board.monkey i).sleeping = true
    · simp [hs]
    · simp [hs]
  · next hc =>
    refine iff_of_false (by simp) ?_
    rintro ⟨i, hi, -⟩
    exact hc i hi

theorem Moves.eats_nothing {direction : Direction} (h : m.Moves i direction) : m.eaten? = none := by
  rw [eaten?, h.1]
  cases direction <;> rfl

theorem Walks.eats_nothing (h : m.Walks i cell) : m.eaten? = none := by
  obtain ⟨direction, hmoves, -⟩ := h
  exact hmoves.eats_nothing

theorem Meets.eats_nothing (h : m.Meets i j) : m.eaten? = none := by
  obtain ⟨direction, hmoves, -⟩ := h
  exact hmoves.eats_nothing

theorem Meets.ne (h : m.Meets i j) : i ≠ j := by
  obtain ⟨-, -, -, -, hone⟩ := h
  rintro rfl
  exact hone rfl

/-- What a step can make of the board. -/
inductive Turn (m : Machine) : Board → Prop where
  | leaves {b : Board} (hb : b.bananas = m.board.bananas) (hnone : m.eaten? = none) : Turn m b
  | eats {i : Fin 7} {id : Nat} (hid : m.eaten? = some id)
      (hb : (m.board.monkey i).banana = some id) : Turn m (m.board.eat i)
  | walks {i : Fin 7} {cell : Cell} (h : m.Walks i cell) : Turn m (m.board.walk i cell)
  | passes {i j : Fin 7} (h : m.Meets i j) : Turn m (m.board.handOver i j)

theorem Moves.turn {direction : Direction} (h : m.Moves i direction) :
    m.Turn (m.board.move i direction) := by
  unfold Board.move
  cases hn : (m.board.monkey i).cell.next? direction with
  | none => exact .leaves rfl h.eats_nothing
  | some cell =>
    dsimp only
    cases hm : m.board.monkeyAt? cell with
    | none => exact .walks ⟨direction, h, hn, Board.Sound.monkeyAt?_eq_none hm⟩
    | some j =>
      obtain rfl := Board.Sound.monkeyAt?_eq_some hm
      dsimp only
      unfold Board.bump
      by_cases hj : (m.board.monkey j).sleeping = true
      · rw [if_pos hj]
        exact .leaves rfl h.eats_nothing
      · rw [if_neg hj]
        by_cases hone : (m.board.monkey i).banana.isSome = (m.board.monkey j).banana.isSome
        · rw [if_pos hone]
          exact .leaves rfl h.eats_nothing
        · rw [if_neg hone]
          exact .passes ⟨direction, h, hn, by simpa using hj, hone⟩

theorem turn_act {action : Action} (hc : m.code[m.pc]? = some ⟨i, action⟩)
    (hawake : (m.board.monkey i).sleeping = false) : m.Turn ((act i action).on m).2.board := by
  have hmoves (direction : Direction) (ha : action = direction.action) : m.Moves i direction :=
    ⟨ha ▸ hc, hawake⟩
  cases action with
  | up => exact (hmoves .up rfl).turn
  | down => exact (hmoves .down rfl).turn
  | left => exact (hmoves .left rfl).turn
  | right => exact (hmoves .right rfl).turn
  | eat =>
    have heaten : m.eaten? = (m.board.monkey i).banana := by simp [eaten?, hc, hawake]
    cases hb : (m.board.monkey i).banana with
    | none =>
      have hboard : m.board.eat i = m.board := by simp [Board.eat, hb]
      show m.Turn (m.board.eat i)
      rw [hboard]
      exact .leaves rfl (heaten.trans hb)
    | some id => exact .eats (heaten.trans hb) hb
  | learn =>
    refine .leaves ?_ (by simp [eaten?, hc])
    rcases hr : Source.require.on m.input with ⟨_ | c, input⟩
    · simp [act, learn, hr]
    · simp [act, learn, hr, setValue, changeMonkey, changeBoard, Board.modify]
  | yell => exact .leaves (by simp [act, yell]) (by simp [eaten?, hc])
  | grab =>
    refine .leaves ?_ (by simp [eaten?, hc])
    show (m.board.grab i).bananas = m.board.bananas
    unfold Board.grab
    split <;> rfl
  | _ => exact .leaves rfl (by simp [eaten?, hc])

theorem turn_execute {instruction : Instruction} (hc : m.code[m.pc]? = some instruction) :
    m.Turn ((execute instruction).on m).2.board := by
  cases hs : (m.board.monkey instruction.monkey).sleeping with
  | true =>
    have hnone : m.eaten? = none := by
      rw [Option.eq_none_iff_forall_ne_some]
      intro id hid
      obtain ⟨i, hi, hawake, -⟩ := eaten?_eq_some_iff.mp hid
      obtain rfl := Option.some.inj (hc.symm.trans hi)
      exact absurd hs (by simp [hawake])
    rw [execute_asleep hs]
    split
    · exact .leaves rfl hnone
    · exact .leaves rfl hnone
  | false =>
    rw [execute_awake hs]
    exact turn_act hc hs

theorem turn_step (h : m.board.Sound) : m.Turn (step.on m).2.board := by
  rcases hc : m.code[m.pc]? with _ | instruction
  · rw [step_at_rest (.inl hc)]
    exact .leaves rfl (by simp [eaten?, hc])
  · by_cases hb : m.board.bananas = []
    · -- Where there are no bananas, nobody carries one that could be eaten.
      rw [step_at_rest (.inr hb)]
      refine .leaves rfl ?_
      rw [Option.eq_none_iff_forall_ne_some]
      intro id hid
      obtain ⟨i, -, -, hcarries⟩ := eaten?_eq_some_iff.mp hid
      have hmem := h.carried i id hcarries
      rw [hb] at hmem
      cases hmem
    · rw [board_step hc hb]
      exact turn_execute hc

theorem step_halts_iff (hpc : m.pc < m.code.size) :
    (step.on m).1 = .ok .halt ↔ m.board.bananas = [] := by
  have hc : m.code[m.pc]? = some m.code[m.pc] := Array.getElem?_eq_getElem hpc
  by_cases hb : m.board.bananas = []
  · rw [step_at_rest (.inr hb)]
    exact iff_of_true rfl hb
  · rw [step_on hc hb]
    rcases (execute m.code[m.pc]).on m with ⟨_ | _, t⟩
    · exact iff_of_false nofun hb
    · exact iff_of_false nofun hb

theorem Turn.ids (h : m.board.Sound) (ht : m.Turn b) :
    b.ids = m.board.ids.diff m.eaten?.toList := by
  cases ht with
  | leaves hb hnone => rw [Board.ids, hb, hnone]; rfl
  | eats hid hb => rw [Board.ids_eat h hb, hid, Option.toList_some, List.diff_cons, List.diff_nil]
  | walks hw => rw [Board.ids_walk, hw.eats_nothing]; rfl
  | passes hm => rw [Board.ids_handOver hm.ne, hm.eats_nothing]; rfl

theorem eaten_mem (h : m.board.Sound) (hid : m.eaten? = some id) : id ∈ m.board.ids := by
  obtain ⟨i, -, -, hcarries⟩ := eaten?_eq_some_iff.mp hid
  exact List.mem_map_of_mem (h.carried i id hcarries)

/-- What becomes of the bananas in a step. -/
structure Conserves (m t : Machine) : Prop where
  /-- Those that are left are the same ones in the same order. -/
  left : t.board.ids = m.board.ids.diff m.eaten?.toList
  eaten : ∀ id, (id ∈ m.board.ids ∧ id ∉ t.board.ids) ↔
    ∃ i, m.code[m.pc]? = some ⟨i, .eat⟩ ∧ (m.board.monkey i).sleeping = false ∧
      (m.board.monkey i).banana = some id
  resting : ∀ id old cell, ⟨id, old⟩ ∈ m.board.bananas → ⟨id, cell⟩ ∈ t.board.bananas →
    (∀ i, (m.board.monkey i).banana ≠ some id) → cell = old
  /-- One that is somewhere else has come with its carrier or has got another one. -/
  carried : ∀ id old cell, ⟨id, old⟩ ∈ m.board.bananas → ⟨id, cell⟩ ∈ t.board.bananas →
    cell ≠ old → ∃ i j, (m.board.monkey i).banana = some id ∧
      (t.board.monkey j).banana = some id ∧ (t.board.monkey j).cell = cell ∧
      (i = j ∧ m.Walks i cell ∨ m.Meets i j ∨ m.Meets j i)

theorem Turn.carried (h : m.board.Sound) (ht : m.Turn b) {old : Cell}
    (hold : ⟨id, old⟩ ∈ m.board.bananas) (hnow : ⟨id, cell⟩ ∈ b.bananas) (hne : cell ≠ old) :
    ∃ i j, (m.board.monkey i).banana = some id ∧ (b.monkey j).banana = some id ∧
      (b.monkey j).cell = cell ∧ (i = j ∧ m.Walks i cell ∨ m.Meets i j ∨ m.Meets j i) := by
  cases ht with
  | leaves hb hnone =>
    rw [hb] at hnow
    exact absurd (h.cell_eq hnow hold) hne
  | @eats i _ _ hb =>
    have hmem : ⟨id, cell⟩ ∈ m.board.bananas := by
      simp only [Board.eat, hb] at hnow
      exact List.mem_of_mem_filter hnow
    exact absurd (h.cell_eq hmem hold) hne
  | @walks i target hw =>
    obtain ⟨hi, rfl⟩ := Board.moved_by_walk h hold hnow hne
    obtain ⟨hcell, hbanana, -⟩ := Board.walk_spec i i cell m.board
    rw [if_pos rfl] at hcell
    exact ⟨i, i, hi, hbanana.trans hi, hcell, .inl ⟨rfl, hw⟩⟩
  | @passes i j hm =>
    obtain ⟨hi, hj, -, -⟩ := Board.handOver_spec hm.ne m.board
    rcases Board.moved_by_handOver h hm.ne hold hnow hne with ⟨hmine, rfl⟩ | ⟨htheirs, rfl⟩
    · refine ⟨i, j, hmine, ?_, ?_, .inr (.inl hm)⟩
      · rw [hj, hmine]
      · rw [hj]
    · refine ⟨j, i, htheirs, ?_, ?_, .inr (.inr hm)⟩
      · rw [hi, htheirs]
      · rw [hi]

theorem step_conserves (h : m.board.Sound) : m.Conserves (step.on m).2 := by
  have ht := turn_step h
  have hleft := ht.ids h
  refine ⟨hleft, fun id => ?_, fun id old cell hold hnow hfree => ?_, fun id old cell =>
    ht.carried h⟩
  · have hmem : id ∈ (step.on m).2.board.ids ↔ id ∈ m.board.ids ∧ id ∉ m.eaten?.toList := by
      rw [hleft]
      exact List.Nodup.mem_sdiff_iff h.numbered
    rw [hmem, ← eaten?_eq_some_iff, Option.mem_toList]
    constructor
    · rintro ⟨hin, hout⟩
      by_contra hne
      exact hout ⟨hin, hne⟩
    · intro hid
      exact ⟨eaten_mem h hid, fun hh => hh.2 hid⟩
  · by_contra hne
    obtain ⟨i, -, hi, -⟩ := ht.carried h hold hnow hne
    exact hfree i hi

theorem bananas_step (h : m.board.Sound) :
    (step.on m).2.board.bananas.length + m.eaten?.toList.length = m.board.bananas.length := by
  have hleft := congrArg List.length ((turn_step h).ids h)
  cases he : m.eaten? with
  | none => simpa [he, Board.ids] using hleft
  | some id =>
    have hmem := eaten_mem h he
    have hpos := List.length_pos_of_mem hmem
    rw [he, Option.toList_some, List.diff_cons, List.diff_nil, List.length_erase_of_mem hmem] at hleft
    simp only [Board.ids, List.length_map] at hleft hpos
    simp only [Option.toList_some, List.length_singleton]
    omega

theorem sound_after (h : m.board.Sound) (k : Nat) : (interpreter.after k m).board.Sound := by
  induction k with
  | zero => exact h
  | succ k ih => exact sound_step ih

/-- By induction on the number of steps: each one takes off what it eats. -/
theorem bananas_after (h : m.board.Sound) (k : Nat) : (interpreter.after k m).board.ids =
      m.board.ids.diff ((interpreter.visited k m).filterMap eaten?) ∧
    (interpreter.after k m).board.bananas.length +
      ((interpreter.visited k m).filterMap eaten?).length = m.board.bananas.length := by
  induction k with
  | zero => exact ⟨rfl, rfl⟩
  | succ k ih =>
    obtain ⟨hids, hlength⟩ := ih
    have hs := sound_after h k
    rw [Interpreter.filterMap_visited_succ]
    refine ⟨?_, ?_⟩
    · rw [List.diff_append, ← hids]
      exact (turn_step hs).ids hs
    · have hstep : (interpreter.after (k + 1) m).board.bananas.length +
          (interpreter.after k m).eaten?.toList.length =
            (interpreter.after k m).board.bananas.length := bananas_step hs
      rw [List.length_append]
      omega

/-- In every reachable state a step conserves the bananas, but for one that is eaten, and halts in front
of an instruction exactly if there is none. Over any number of steps those go that are eaten. -/
theorem bananas_are_conserved (m : Machine) (h : interpreter.Reachable Initial m) :
    m.Conserves (step.on m).2 ∧
    (m.pc < m.code.size → ((step.on m).1 = .ok .halt ↔ m.board.bananas = [])) ∧
    ∀ k, (interpreter.after k m).board.ids =
        m.board.ids.diff ((interpreter.visited k m).filterMap eaten?) ∧
      (interpreter.after k m).board.bananas.length +
        ((interpreter.visited k m).filterMap eaten?).length = m.board.bananas.length := by
  have hs := sound_of_reachable h
  exact ⟨step_conserves hs, step_halts_iff, bananas_after hs⟩

/-- A monkey takes the banana it stands on along and eats it elsewhere. -/
def picnic : Machine :=
  { code := (parse false "6 GRAB\n6 UP\n6 EAT".toList).toArray
    strict := false, rng := .ofSeed 0, input := .ofText [], output := {} }

theorem bananas_conserved_at_picnic :
    interpreter.Reachable Initial picnic ∧ picnic.pc < picnic.code.size ∧
      (step.on picnic).1 ≠ .ok .halt ∧
      (∃ i j, ((interpreter.after 1 picnic).board.monkey i).banana = some 12 ∧
        ((interpreter.after 2 picnic).board.monkey j).banana = some 12 ∧
        ((interpreter.after 2 picnic).board.monkey j).cell = ⟨4, 6⟩) ∧
      (interpreter.after 3 picnic).board.ids = picnic.board.ids.erase 12 ∧
      (interpreter.after 3 picnic).board.bananas.length + 1 = picnic.board.bananas.length := by
  have h : interpreter.Reachable Initial picnic := .initial (.inl rfl)
  have hpc : picnic.pc < picnic.code.size := by decide +kernel
  have heaten : (interpreter.visited 3 picnic).filterMap eaten? = [12] := by decide +kernel
  obtain ⟨-, hhalts, hleft⟩ := bananas_are_conserved picnic h
  obtain ⟨hids, hlength⟩ := hleft 3
  obtain ⟨hwalked, -, -⟩ := bananas_are_conserved (interpreter.after 1 picnic) (.step h)
  obtain ⟨i, j, hi, hj, hcell, -⟩ := hwalked.carried 12 ⟨4, 7⟩ ⟨4, 6⟩ (by decide +kernel)
    (by decide +kernel) (by decide)
  rw [heaten] at hids hlength
  refine ⟨h, hpc, ?_, ⟨i, j, hi, hj, hcell⟩, hids, hlength⟩
  rw [ne_eq, hhalts hpc]
  decide +kernel

end Machine

end Esolang.Troop
