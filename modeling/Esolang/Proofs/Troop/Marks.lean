import Esolang.Proofs.Course
import Esolang.Proofs.Troop.Failure
import Esolang.Proofs.Troop.Reachable

/-! Marks in a program, and the way a program is run through. Only telling a monkey to mark its place sets
a mark, so that going back leads behind an instruction of the program, as going on does. -/

namespace Esolang.Troop

namespace Board

variable {b : Board}

theorem mark_modify {f : Monkey → Monkey} (h : ∀ m, (f m).mark = m.mark) (i k : Fin 7) (b : Board) :
    ((b.modify i f).monkey k).mark = (b.monkey k).mark := by
  rw [monkey_modify]
  split
  · next hk => rw [h, hk]
  · rfl

theorem mark_walk (i k : Fin 7) (cell : Cell) (b : Board) :
    ((b.walk i cell).monkey k).mark = (b.monkey k).mark := by
  unfold walk
  dsimp only
  rw [monkey_bring]
  split
  · exact mark_modify (by intro _; rfl) i k b
  · rw [mark_modify, mark_modify]
    · exact fun _ => rfl
    · exact fun _ => rfl

theorem mark_bump (i j k : Fin 7) (b : Board) :
    ((b.bump i j).monkey k).mark = (b.monkey k).mark := by
  unfold bump
  split
  · exact mark_modify (by intro _; rfl) j k b
  · split
    · rw [mark_modify, mark_modify]
      · exact fun _ => rfl
      · exact fun _ => rfl
    · unfold handOver
      simp only [monkey_bring]
      rw [mark_modify, mark_modify]
      · exact fun _ => rfl
      · exact fun _ => rfl

theorem mark_move (i k : Fin 7) (direction : Direction) (b : Board) :
    ((b.move i direction).monkey k).mark = (b.monkey k).mark := by
  unfold move
  split
  · exact mark_modify (by intro _; rfl) i k b
  · split
    · exact mark_bump i _ k b
    · exact mark_walk i k _ b

theorem mark_influence (i k : Fin 7) (f : UInt8 → UInt8 → UInt8) (b : Board) :
    ((b.influence i f).monkey k).mark = (b.monkey k).mark := by
  obtain ⟨value, hk⟩ := monkey_influence i k f b
  rw [hk]

theorem mark_grab (i k : Fin 7) (b : Board) :
    ((b.grab i).monkey k).mark = (b.monkey k).mark := by
  unfold grab
  split
  · rfl
  · exact mark_modify (by intro _; rfl) i k b

theorem mark_eat (i k : Fin 7) (b : Board) :
    ((b.eat i).monkey k).mark = (b.monkey k).mark := by
  unfold eat
  split
  · rfl
  · exact mark_modify (f := fun m => { m with banana := none }) (fun _ => rfl) i k b

end Board

namespace Machine

variable {m t : Machine} {i : Fin 7} {k : Nat}

/-- What an action makes of the program, the place in it and the marks. -/
structure Charts (m : Machine) (i : Fin 7) (action : Action) (t : Machine) : Prop where
  code : t.code = m.code
  strict : t.strict = m.strict
  pc : t.pc = if action = .back then (m.board.monkey i).mark.getD m.pc else m.pc
  mark : ∀ j, (t.board.monkey j).mark =
    if action = .mark ∧ j = i then some m.pc else (m.board.monkey j).mark

theorem act_charts (i : Fin 7) (action : Action) (m : Machine) :
    m.Charts i action ((act i action).on m).2 := by
  cases action with
  | up => exact ⟨rfl, rfl, rfl, fun j => Board.mark_move i j .up m.board⟩
  | down => exact ⟨rfl, rfl, rfl, fun j => Board.mark_move i j .down m.board⟩
  | left => exact ⟨rfl, rfl, rfl, fun j => Board.mark_move i j .left m.board⟩
  | right => exact ⟨rfl, rfl, rfl, fun j => Board.mark_move i j .right m.board⟩
  | learn =>
    rcases hr : Source.require.on m.input with ⟨_ | c, input⟩
    · simp only [act, learn, Call.on_bind, Call.on_onPart, hr]
      exact ⟨rfl, rfl, rfl, fun j => rfl⟩
    · simp only [act, learn, Call.on_bind, Call.on_onPart, hr]
      exact ⟨rfl, rfl, rfl, fun j => Board.mark_modify (by intro _; rfl) i j m.board⟩
  | yell => exact ⟨rfl, rfl, rfl, fun j => rfl⟩
  | play => exact ⟨rfl, rfl, rfl, fun j => Board.mark_modify (by intro _; rfl) i j m.board⟩
  | sleep => exact ⟨rfl, rfl, rfl, fun j => Board.mark_modify (by intro _; rfl) i j m.board⟩
  | wake => exact ⟨rfl, rfl, rfl, fun j => rfl⟩
  | grab => exact ⟨rfl, rfl, rfl, fun j => Board.mark_grab i j m.board⟩
  | drop => exact ⟨rfl, rfl, rfl, fun j => Board.mark_modify (by intro _; rfl) i j m.board⟩
  | eat => exact ⟨rfl, rfl, rfl, fun j => Board.mark_eat i j m.board⟩
  | mark =>
    refine ⟨rfl, rfl, rfl, fun j => ?_⟩
    show ((m.board.modify i fun monkey => { monkey with mark := some m.pc }).monkey j).mark = _
    by_cases hj : j = i
    · rw [hj, Board.monkey_modify_self, if_pos ⟨rfl, rfl⟩]
    · rw [Board.monkey_modify_of_ne hj, if_neg fun hh => hj hh.2]
  | back => exact ⟨rfl, rfl, rfl, fun j => rfl⟩
  | teach => exact ⟨rfl, rfl, rfl, fun j => Board.mark_influence i j (fun v a => v + a) m.board⟩
  | fight => exact ⟨rfl, rfl, rfl, fun j => Board.mark_influence i j (fun v a => v - a) m.board⟩
  | bond => exact ⟨rfl, rfl, rfl, fun j => Board.mark_influence i j (fun v a => v * a) m.board⟩
  | ego =>
    exact ⟨rfl, rfl, rfl,
      fun j => Board.mark_influence i j (fun v a => if a = 0 then v else v / a) m.board⟩

/-- The next step tells a monkey to go back that is awake and has marked a place. -/
def GoesBack (m : Machine) (k : Nat) : Prop :=
  ∃ i, m.code[m.pc]? = some ⟨i, .back⟩ ∧ (m.board.monkey i).sleeping = false ∧
    (m.board.monkey i).mark = some k

/-- What a step makes of the program, the place in it and the marks, whatever becomes of the step. -/
structure Leads (m t : Machine) : Prop where
  code : t.code = m.code
  strict : t.strict = m.strict
  mark : ∀ i k, (t.board.monkey i).mark = some k →
    (m.board.monkey i).mark = some k ∨ k = m.pc ∧ m.code[m.pc]? = some ⟨i, .mark⟩

theorem execute_leads {instruction : Instruction} (hc : m.code[m.pc]? = some instruction) :
    m.Leads ((execute instruction).on m).2 := by
  obtain ⟨i, action⟩ := instruction
  cases hs : (m.board.monkey i).sleeping with
  | true =>
    rw [execute_asleep hs]
    by_cases hw : action = .wake
    · rw [if_pos hw]
      refine ⟨rfl, rfl, fun j k hj => .inl ?_⟩
      have hwake := Board.mark_modify (f := Board.wake) (fun _ => rfl) i j m.board
      exact hwake.symm.trans hj
    · rw [if_neg hw]
      exact ⟨rfl, rfl, fun j k hj => .inl hj⟩
  | false =>
    rw [execute_awake hs]
    obtain ⟨hcode, hstrict, -, hmark⟩ := act_charts i action m
    refine ⟨hcode, hstrict, fun j k hj => ?_⟩
    rw [hmark] at hj
    split at hj
    · next hh =>
      obtain ⟨rfl, rfl⟩ := hh
      exact .inr ⟨(Option.some.inj hj).symm, hc⟩
    · exact .inl hj

theorem step_leads (m : Machine) : m.Leads (step.on m).2 := by
  rcases step_cases m with hm | ⟨instruction, hc, -, hm⟩
  · rw [hm]
    exact ⟨rfl, rfl, fun _ _ hj => .inl hj⟩
  · have hleads := execute_leads hc
    rw [hm]
    rcases hx : (execute instruction).on m with ⟨_ | _, t⟩
    · rwa [hx] at hleads
    · rw [hx] at hleads
      exact ⟨hleads.code, hleads.strict, hleads.mark⟩

theorem goesBack_iff (hc : m.code[m.pc]? = some ⟨i, .back⟩) :
    m.GoesBack k ↔ (m.board.monkey i).sleeping = false ∧ (m.board.monkey i).mark = some k := by
  constructor
  · rintro ⟨j, hj, hh⟩
    obtain rfl : i = j := congrArg Instruction.monkey (Option.some.inj (hc.symm.trans hj))
    exact hh
  · intro hh
    exact ⟨i, hc, hh⟩

theorem not_goesBack {action : Action} (hc : m.code[m.pc]? = some ⟨i, action⟩)
    (ha : action ≠ .back) : ¬ m.GoesBack k := by
  rintro ⟨j, hj, -⟩
  exact ha (congrArg Instruction.action (Option.some.inj (hc.symm.trans hj)))

theorem execute_pc {instruction : Instruction} (hc : m.code[m.pc]? = some instruction) :
    (∀ k, m.GoesBack k → ((execute instruction).on m).2.pc = k) ∧
      ((∀ k, ¬ m.GoesBack k) → ((execute instruction).on m).2.pc = m.pc) := by
  obtain ⟨i, action⟩ := instruction
  cases hs : (m.board.monkey i).sleeping with
  | true =>
    rw [execute_asleep hs]
    refine ⟨fun k hk => ?_, fun _ => ?_⟩
    · obtain ⟨j, hj, hawake, -⟩ := hk
      obtain rfl : i = j := congrArg Instruction.monkey (Option.some.inj (hc.symm.trans hj))
      exact absurd (hs.symm.trans hawake) Bool.noConfusion
    · split <;> rfl
  | false =>
    rw [execute_awake hs, (act_charts i action m).pc]
    by_cases ha : action = .back
    · subst ha
      rw [if_pos rfl]
      refine ⟨fun k hk => ?_, fun hno => ?_⟩
      · rw [((goesBack_iff hc).mp hk).2, Option.getD_some]
      · cases hm : (m.board.monkey i).mark with
        | none => rfl
        | some k => exact absurd ((goesBack_iff hc).mpr ⟨hs, hm⟩) (hno k)
    · rw [if_neg ha]
      exact ⟨fun k hk => absurd hk (not_goesBack hc ha), fun _ => rfl⟩

/-- A step behind which the machine can go on goes on behind the instruction, or behind the mark that it
goes back to. -/
theorem step_proceeds (h : step.on m = (.ok .proceed, t)) : m.pc < m.code.size ∧
    (∀ k, m.GoesBack k → t.pc = k + 1) ∧ ((∀ k, ¬ m.GoesBack k) → t.pc = m.pc + 1) := by
  rcases step_cases m with hm | ⟨instruction, hc, -, hm⟩
  · rw [hm] at h
    cases h
  · obtain ⟨hback, hon⟩ := execute_pc hc
    obtain ⟨hlt, -⟩ := Array.getElem?_eq_some_iff.mp hc
    rw [hm] at h
    rcases hx : (execute instruction).on m with ⟨_ | _, u⟩
    · rw [hx] at h
      cases h
    · rw [hx] at h hback hon
      obtain rfl := (Prod.mk.inj h).2
      exact ⟨hlt, fun k hk => congrArg (· + 1) (hback k hk), fun hno => congrArg (· + 1) (hon hno)⟩

theorem step_stays {result : Except Error Progress} (h : step.on m = (result, t))
    (hr : result ≠ .ok .proceed) : t.pc = m.pc := by
  rcases step_cases m with hm | ⟨instruction, hc, -, hm⟩
  · rw [hm] at h
    rw [(Prod.mk.inj h).2]
  · rcases hx : (execute instruction).on m with ⟨e | _, u⟩
    · rw [hm, hx] at h
      obtain ⟨rfl, rfl⟩ := Prod.mk.inj h
      obtain ⟨input, output, rfl, -⟩ := execute_failsAs instruction m e u hx
      rfl
    · rw [hm, hx] at h
      exact absurd (Prod.mk.inj h).1.symm hr

/-- Every mark is the place of an instruction by which its monkey has marked it, and the machine is at an
instruction or behind the last one. -/
structure Charted (m : Machine) : Prop where
  marks : ∀ i k, (m.board.monkey i).mark = some k → m.code[k]? = some ⟨i, .mark⟩
  pc : m.pc ≤ m.code.size

theorem Charted.lt_size (h : m.Charted) (hk : m.GoesBack k) : k < m.code.size := by
  obtain ⟨i, -, -, hmark⟩ := hk
  obtain ⟨hlt, -⟩ := Array.getElem?_eq_some_iff.mp (h.marks i k hmark)
  exact hlt

theorem Charted.step (h : m.Charted) : (step.on m).2.Charted := by
  obtain ⟨hcode, -, hmark⟩ := step_leads m
  refine ⟨fun i k hk => ?_, ?_⟩
  · rw [hcode]
    rcases hmark i k hk with hk | ⟨rfl, hc⟩
    · exact h.marks i k hk
    · exact hc
  · rw [hcode]
    rcases hm : Machine.step.on m with ⟨result, t⟩
    by_cases hr : result = .ok .proceed
    · subst hr
      -- What the machine goes back to is an instruction, so that the place behind it is at most the end.
      obtain ⟨hlt, hback, hon⟩ := step_proceeds hm
      by_cases hk : ∃ k, m.GoesBack k
      · obtain ⟨k, hk⟩ := hk
        have hlt' := h.lt_size hk
        have hpc := hback k hk
        show t.pc ≤ m.code.size
        omega
      · have hpc := hon (not_exists.mp hk)
        show t.pc ≤ m.code.size
        omega
    · rw [step_stays hm hr]
      exact h.pc

/-- A machine as it is built, on the first board or on one that a text shows. -/
def New (m : Machine) : Prop :=
  m.Initial ∧ ∃ config entropy input output,
    m = (ofConfig config entropy input output).withBoard m.board

theorem Initial.unmarked (h : m.Initial) (i : Fin 7) : (m.board.monkey i).mark = none := by
  rcases h with h | ⟨text, h⟩
  · rw [h]
    exact congrArg Monkey.mark (Board.monkey_ofRows _ i)
  · obtain ⟨-, hb⟩ := Board.ofText?_eq_some_iff.mp h
    rw [← hb, Board.monkey_ofRows]

/-- The states of a machine that has been loaded once, when it was new. -/
inductive Running (source : String) : Machine → Prop where
  | load {m : Machine} (h : New m) : Running source ((load source).on m).2
  | prepare {m : Machine} (h : Running source m) : Running source (interpreter.prepare.on m).2
  | step {m : Machine} (h : Running source m) : Running source (step.on m).2
  | finish {m : Machine} (h : Running source m) : Running source (finish.on m).2

theorem Running.charted {source : String} (h : Running source m) :
    m.code = (parse m.strict source.toList).toArray ∧ m.Charted := by
  induction h with
  | @load m h =>
    refine ⟨rfl, fun i k hk => ?_, Nat.zero_le _⟩
    have hnone : (m.board.monkey i).mark = none := h.1.unmarked i
    exact absurd (hnone.symm.trans hk) nofun
  | prepare _ ih => exact ih
  | @step m _ ih =>
    obtain ⟨hcode, hcharted⟩ := ih
    obtain ⟨hc, hs, -⟩ := step_leads m
    exact ⟨by rw [hc, hs, hcode], hcharted.step⟩
  | finish _ ih => exact ⟨ih.1, ih.2.marks, ih.2.pc⟩

/-- Once a new machine has been loaded, every mark is one that the program sets, the machine never leaves
the program, and a step goes on behind its instruction, or behind the mark that it goes back to. A step
behind which the machine cannot go on stays where it is. -/
theorem marks_stay_in_program (source : String) (m : Machine) (h : Running source m) :
    m.code = (parse m.strict source.toList).toArray ∧
    (∀ i k, (m.board.monkey i).mark = some k → m.code[k]? = some ⟨i, .mark⟩) ∧
    m.pc ≤ m.code.size ∧
    (∀ t, step.on m = (.ok .proceed, t) →
      (∀ k, m.GoesBack k → t.pc = k + 1 ∧ 1 ≤ t.pc ∧ t.pc ≤ m.code.size) ∧
      ((∀ k, ¬ m.GoesBack k) → t.pc = m.pc + 1)) ∧
    ∀ result t, step.on m = (result, t) → result ≠ .ok .proceed → t.pc = m.pc := by
  obtain ⟨hcode, hcharted⟩ := h.charted
  refine ⟨hcode, hcharted.marks, hcharted.pc, fun t ht => ?_, fun result t => step_stays⟩
  obtain ⟨-, hback, hon⟩ := step_proceeds ht
  refine ⟨fun k hk => ?_, hon⟩
  have hlt := hcharted.lt_size hk
  have hpc := hback k hk
  omega

/-- The first monkey goes back behind its mark and comes across the instruction of another one. -/
def circuit : Machine :=
  ((load "1 UP\n1 MARK\n2 SLEEP\n1 BACK").on (ofConfig {} 0 (.ofText []) {})).2

theorem circuit_goes_back :
    Running "1 UP\n1 MARK\n2 SLEEP\n1 BACK" (interpreter.after 3 circuit) ∧
      (interpreter.after 3 circuit).pc = 3 ∧ (interpreter.after 3 circuit).GoesBack 1 ∧
      (interpreter.after 4 circuit).pc = 2 := by
  have hnew : New (ofConfig {} 0 (.ofText []) {}) := ⟨.inl rfl, {}, 0, .ofText [], {}, rfl⟩
  have h : Running "1 UP\n1 MARK\n2 SLEEP\n1 BACK" (interpreter.after 3 circuit) :=
    .step (.step (.step (.load hnew)))
  have hback : (interpreter.after 3 circuit).GoesBack 1 :=
    ⟨0, by decide +kernel, by decide +kernel, by decide +kernel⟩
  have hproceeds : step.on (interpreter.after 3 circuit) = (.ok .proceed, interpreter.after 4 circuit) :=
    Prod.ext (by decide +kernel) rfl
  obtain ⟨-, -, -, hgoes, -⟩ := marks_stay_in_program _ _ h
  exact ⟨h, by decide +kernel, hback, ((hgoes _ hproceeds).1 1 hback).1⟩

end Machine

end Esolang.Troop
