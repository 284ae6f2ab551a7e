import Esolang.Proofs.Troop.Bananas

/-! Monkeys that are asleep. What the others do passes them by, but for a move onto their cell, which
wakes them up and does nothing else; and whatever they are told themselves, they can only wake up. -/

namespace Esolang.Troop

namespace Board

variable {b : Board} {i j k : Fin 7}

theorem walk_of_ne (hk : k ≠ i) (cell : Cell) (b : Board) :
    (b.walk i cell).monkey k = b.monkey k := by
  unfold walk
  dsimp only
  rw [monkey_bring]
  split
  · exact monkey_modify_of_ne hk _ b
  · rw [monkey_modify_of_ne hk, monkey_modify_of_ne hk]

theorem bump_of_ne (hi : k ≠ i) (hj : k ≠ j) (b : Board) :
    (b.bump i j).monkey k = b.monkey k := by
  unfold bump
  split
  · exact monkey_modify_of_ne hj _ b
  · split
    · rw [monkey_modify_of_ne hj, monkey_modify_of_ne hi]
    · unfold handOver
      simp only [monkey_bring]
      rw [monkey_modify_of_ne hj, monkey_modify_of_ne hi]

/-- A move changes nobody but the monkey that moves and the one that it runs into. -/
theorem move_of_ne (hk : k ≠ i) {direction : Direction}
    (hn : (b.monkey i).cell.next? direction ≠ some (b.monkey k).cell) :
    (b.move i direction).monkey k = b.monkey k := by
  unfold move
  cases hc : (b.monkey i).cell.next? direction with
  | none => exact monkey_modify_of_ne hk _ b
  | some cell =>
    dsimp only
    cases hm : b.monkeyAt? cell with
    | none => exact walk_of_ne hk cell b
    | some j =>
      have hj : k ≠ j := by
        rintro rfl
        rw [Sound.monkeyAt?_eq_some hm] at hn
        exact hn hc
      exact bump_of_ne hk hj b

theorem move_onto_sleeper (h : b.Sound) (hj : (b.monkey j).sleeping = true)
    {direction : Direction} (hn : (b.monkey i).cell.next? direction = some (b.monkey j).cell) :
    b.move i direction = b.modify j wake := by
  unfold move
  rw [hn]
  dsimp only
  rw [h.monkeyAt?_eq_some_iff.mpr rfl]
  exact if_pos hj

theorem influence_of_sleeping (hk : (b.monkey k).sleeping = true) (i : Fin 7)
    (f : UInt8 → UInt8 → UInt8) : (b.influence i f).monkey k = b.monkey k := by
  rw [influence_spec, if_neg (by simp [hk])]

end Board

namespace Machine

variable {m : Machine} {i j : Fin 7}

/-- The next step moves a monkey that is awake onto the cell of another one. -/
def RunsInto (m : Machine) (i j : Fin 7) : Prop :=
  ∃ direction, m.Moves i direction ∧
    (m.board.monkey i).cell.next? direction = some (m.board.monkey j).cell

/-- The next step wakes a monkey that is asleep. -/
def Rouses (m : Machine) (j : Fin 7) : Prop :=
  m.board.bananas ≠ [] ∧ (m.code[m.pc]? = some ⟨j, .wake⟩ ∨ ∃ i, m.RunsInto i j)

theorem act_spares_sleeper {action : Action} (hc : m.code[m.pc]? = some ⟨i, action⟩)
    (hi : (m.board.monkey i).sleeping = false) (hj : (m.board.monkey j).sleeping = true)
    (hno : ¬ m.RunsInto i j) :
    ((act i action).on m).2.board.monkey j = m.board.monkey j := by
  have hij : j ≠ i := by
    rintro rfl
    exact Bool.false_ne_true (hi.symm.trans hj)
  have hmove (d : Direction) (ha : action = d.action) :
      (m.board.move i d).monkey j = m.board.monkey j :=
    Board.move_of_ne hij fun hn => hno ⟨d, ⟨ha ▸ hc, hi⟩, hn⟩
  -- All but moves and influence change only the monkey that acts, and that one is awake.
  have hmodify (f : Monkey → Monkey) : (m.board.modify i f).monkey j = m.board.monkey j :=
    Board.monkey_modify_of_ne hij f m.board
  cases action with
  | up => exact hmove .up rfl
  | down => exact hmove .down rfl
  | left => exact hmove .left rfl
  | right => exact hmove .right rfl
  | learn =>
    rcases hr : Source.require.on m.input with ⟨_ | c, input⟩
    · simp [act, learn, hr]
    · simp only [act, learn, Call.on_bind, Call.on_onPart, hr]
      exact hmodify _
  | yell => simp [act, yell]
  | play => exact hmodify _
  | sleep => exact hmodify _
  | wake => rfl
  | grab =>
    show (m.board.grab i).monkey j = m.board.monkey j
    unfold Board.grab
    split
    · rfl
    · exact hmodify _
  | drop => exact hmodify _
  | eat =>
    show (m.board.eat i).monkey j = m.board.monkey j
    unfold Board.eat
    split
    · rfl
    · exact hmodify fun m => { m with banana := none }
  | mark => exact hmodify _
  | back => rfl
  | teach => exact Board.influence_of_sleeping hj i fun v a => v + a
  | fight => exact Board.influence_of_sleeping hj i fun v a => v - a
  | bond => exact Board.influence_of_sleeping hj i fun v a => v * a
  | ego => exact Board.influence_of_sleeping hj i fun v a => if a = 0 then v else v / a

theorem step_spares_sleeper (hj : (m.board.monkey j).sleeping = true) (hr : ¬ m.Rouses j) :
    (step.on m).2.board.monkey j = m.board.monkey j := by
  rcases step_cases m with hm | ⟨⟨i, action⟩, hc, hb, -⟩
  · rw [hm]
  · rw [board_step hc hb]
    cases hs : (m.board.monkey i).sleeping with
    | false =>
      rw [execute_awake hs]
      exact act_spares_sleeper hc hs hj fun hno => hr ⟨hb, .inr ⟨i, hno⟩⟩
    | true =>
      rw [execute_asleep hs]
      by_cases hw : action = .wake
      · have hij : j ≠ i := by
          rintro rfl
          exact hr ⟨hb, .inl (hw ▸ hc)⟩
        rw [if_pos hw]
        exact Board.monkey_modify_of_ne hij _ m.board
      · rw [if_neg hw]

theorem step_rouses (h : m.board.Sound) (hj : (m.board.monkey j).sleeping = true)
    (hr : m.Rouses j) :
    step.on m = (.ok .proceed, { m.changeMonkey j Board.wake with pc := m.pc + 1 }) := by
  obtain ⟨hb, hc | ⟨i, d, ⟨hc, hi⟩, hn⟩⟩ := hr
  · rw [step_on hc hb, execute_asleep hj, if_pos rfl]
    rfl
  · have hmove : m.changeBoard (Board.move i d) = m.changeMonkey j Board.wake := by
      simp only [changeMonkey, changeBoard, Board.move_onto_sleeper h hj hn]
    rw [step_on hc hb, execute_awake hi, act_move, Call.on_modify, hmove]
    rfl

theorem step_of_sleeper {action : Action} (hj : (m.board.monkey j).sleeping = true)
    (ha : action ≠ .wake) (hc : m.code[m.pc]? = some ⟨j, action⟩) :
    step.on m = if m.board.bananas = [] then (.ok .halt, m)
      else (.ok .proceed, { m with pc := m.pc + 1 }) := by
  by_cases hb : m.board.bananas = []
  · rw [if_pos hb, step_at_rest (.inr hb)]
  · rw [if_neg hb, step_on hc hb, execute_asleep hj, if_neg ha]

/-- What a step means to a monkey that is asleep. -/
structure LeavesAsleep (m : Machine) (j : Fin 7) : Prop where
  empty : (m.board.monkey j).banana = none
  kept : (step.on m).2.board.monkey j =
    { m.board.monkey j with sleeping := ((step.on m).2.board.monkey j).sleeping }
  wakes : ((step.on m).2.board.monkey j).sleeping = false ↔ m.Rouses j
  /-- A step that wakes it does nothing else. -/
  alone : m.Rouses j →
    step.on m = (.ok .proceed, { m.changeMonkey j Board.wake with pc := m.pc + 1 })
  /-- Told anything but to wake up it does nothing. -/
  told : ∀ action, action ≠ .wake → m.code[m.pc]? = some ⟨j, action⟩ →
    step.on m = if m.board.bananas = [] then (.ok .halt, m)
      else (.ok .proceed, { m with pc := m.pc + 1 })

theorem roused_monkey (h : m.board.Sound) (hj : (m.board.monkey j).sleeping = true)
    (hr : m.Rouses j) : (step.on m).2.board.monkey j = Board.wake (m.board.monkey j) := by
  rw [step_rouses h hj hr]
  exact Board.monkey_modify_self j _ m.board

/-- In every reachable state each step leaves a monkey that is asleep as it is, unless it wakes the
monkey, which then is all that it does. -/
theorem sleepers_only_wake (m : Machine) (h : interpreter.Reachable Initial m) (j : Fin 7)
    (hj : (m.board.monkey j).sleeping = true) : m.LeavesAsleep j := by
  have hs := sound_of_reachable h
  refine ⟨hs.resting j hj, ?_, ?_, step_rouses hs hj, fun action => step_of_sleeper hj⟩
  · by_cases hr : m.Rouses j
    · rw [roused_monkey hs hj hr]
      rfl
    · rw [step_spares_sleeper hj hr]
  · constructor
    · intro hawake
      by_contra hr
      rw [step_spares_sleeper hj hr, hj] at hawake
      cases hawake
    · intro hr
      rw [roused_monkey hs hj hr]
      rfl

/-- The fourth monkey sleeps until the sixth one comes by. -/
def nap : Machine :=
  { code := (parse false "4 SLEEP\n6 RIGHT\n4 UP\n6 UP".toList).toArray
    strict := false, rng := .ofSeed 0, input := .ofText [], output := {} }

theorem nap_ends_by_a_visit :
    interpreter.Reachable Initial (interpreter.after 3 nap) ∧
      ((interpreter.after 3 nap).board.monkey 3).sleeping = true ∧
      (interpreter.after 3 nap).Rouses 3 ∧
      ((interpreter.after 4 nap).board.monkey 3).sleeping = false ∧
      ((interpreter.after 4 nap).board.monkey 3).cell = ⟨5, 6⟩ ∧
      ((interpreter.after 4 nap).board.monkey 5).cell = ⟨5, 7⟩ := by
  have h : interpreter.Reachable Initial (interpreter.after 3 nap) :=
    .step (.step (.step (.initial (.inl rfl))))
  have hj : ((interpreter.after 3 nap).board.monkey 3).sleeping = true := by decide +kernel
  have hr : (interpreter.after 3 nap).Rouses 3 :=
    ⟨by decide +kernel, .inr ⟨5, .up, ⟨by decide +kernel, by decide +kernel⟩, by decide +kernel⟩⟩
  have hleaves := sleepers_only_wake (interpreter.after 3 nap) h 3 hj
  refine ⟨h, hj, hr, hleaves.wakes.mpr hr, ?_, ?_⟩
  · have hcell := congrArg Monkey.cell hleaves.kept
    exact hcell.trans (by decide +kernel)
  · have hboard := congrArg (fun r => (r.2.board.monkey 5).cell) (hleaves.alone hr)
    exact hboard.trans (by decide +kernel)

end Machine

end Esolang.Troop
