import Esolang.Proofs.Control.Layout
import Esolang.Proofs.Queue.Contents
import Esolang.Proofs.Queue.Decoding

/-! The structured meaning of an ABCR program, and its agreement with the machine that runs the
decoded instructions by position. The end of a loop only goes back to the test in front of it. -/

namespace Esolang.Queue

def Contents.tested (d : Contents) : LoopTest → Int64
  | .peek name => d.front name
  | .register => d.register

/-- What commands do to the contents; a loop goes on as long as the tested value is not zero. -/
def meaning : Meaning brackets.Plain brackets.Opener Contents where
  perform c := Contents.perform (.simple c.val)
  passes test d := d.tested (testOf test) ≠ 0

namespace Machine

theorem testValue_follows (test : LoopTest) :
    Follows (testValue test) (.ofFunction fun d => (.ok (d.tested test), d)) := by
  cases test with
  | peek name => exact peek_follows name
  | register => exact fun _ hm => ⟨rfl, rfl, rfl, rfl, hm⟩

theorem simple_ne_loop (c : Char) (test : LoopTest) (stop : Nat) :
    Instruction.simple c ≠ .loop test stop := by
  unfold Instruction.simple
  split <;> simp

theorem simple_ne_endLoop (c : Char) (start : Nat) : Instruction.simple c ≠ .endLoop start := by
  unfold Instruction.simple
  split <;> simp

theorem step_other {m : Machine} {instruction : Instruction}
    (hl : ∀ test stop, instruction ≠ .loop test stop) (he : ∀ start, instruction ≠ .endLoop start)
    (hc : m.program[m.pc]? = some instruction) :
    step.on m =
      match (perform instruction).on m with
      | (.error e, t) => (.error e, t)
      | (.ok _, t) => (.ok .proceed, t.goTo (m.pc + 1)) := by
  rcases hp : (perform instruction).on m with ⟨_ | _, t⟩
  · cases instruction <;> simp_all [step]
  · cases instruction <;> simp_all [step]

theorem step_loop {m : Machine} {test : LoopTest} {stop : Nat}
    (hc : m.program[m.pc]? = some (.loop test stop)) :
    step.on m =
      match (testValue test).on m with
      | (.error e, t) => (.error e, t)
      | (.ok value, t) => (.ok .proceed, t.goTo (if value = 0 then stop + 1 else m.pc + 1)) := by
  rcases ht : (testValue test).on m with ⟨_ | value, t⟩
  · simp [step, hc, ht]
  · simp [step, hc, ht]

theorem step_endLoop {m : Machine} {start : Nat}
    (hc : m.program[m.pc]? = some (.endLoop start)) :
    step.on m = (.ok .proceed, m.goTo start) := by
  simp [step, hc]

/-- What a step does that finds an instruction. A loop leaves the contents as they are, like any
instruction without effect. -/
structure Carries (m : Machine) (instruction : Instruction) (result : Except Error Progress)
    (t : Machine) : Prop where
  result_eq : result = ((Contents.perform instruction).on m.contents).1.map fun _ => .proceed
  contents_eq : t.contents = ((Contents.perform instruction).on m.contents).2
  program_eq : t.program = m.program
  standard : t.Standard
  place : ∀ e, result = .error e → t.pc = m.pc

theorem step_carries {m : Machine} {instruction : Instruction} (hm : m.Standard)
    (hc : m.program[m.pc]? = some instruction) :
    m.Carries instruction (step.on m).1 (step.on m).2 := by
  by_cases hl : ∃ test stop, instruction = .loop test stop
  · obtain ⟨test, stop, rfl⟩ := hl
    obtain ⟨hr, hd, hp, -, ht⟩ := testValue_follows test m hm
    rw [step_loop hc]
    rcases hcall : (testValue test).on m with ⟨_ | value, t⟩
    · rw [hcall] at hr
      cases hr
    · rw [hcall] at hd hp ht
      exact ⟨rfl, hd, hp, ht, by rintro e ⟨⟩⟩
  · by_cases he : ∃ start, instruction = .endLoop start
    · obtain ⟨start, rfl⟩ := he
      rw [step_endLoop hc]
      exact ⟨rfl, rfl, rfl, hm, by rintro e ⟨⟩⟩
    · obtain ⟨hr, hd, hp, hk, ht⟩ := perform_follows instruction m hm
      rw [step_other (fun test stop h => hl ⟨test, stop, h⟩) (fun start h => he ⟨start, h⟩) hc]
      rcases hcall : (perform instruction).on m with ⟨_ | _, t⟩
      · rw [hcall] at hr hd hp hk ht
        exact ⟨by rw [← hr]; rfl, hd, hp, ht, fun _ _ => hk⟩
      · rw [hcall] at hr hd hp ht
        exact ⟨by rw [← hr]; rfl, hd, hp, ht, by rintro e ⟨⟩⟩

theorem Standard.step {m : Machine} (hm : m.Standard) : (step.on m).2.Standard := by
  rcases hc : m.program[m.pc]? with _ | instruction
  · simpa [Machine.step, hc] using hm
  · exact (step_carries hm hc).standard

theorem load_of_ok {source : String} {code : Array Instruction}
    (h : decode source.toList = .ok code) (m : Machine) :
    (interpreter.load source).on m = (.ok (), { m with program := code, pc := 0 }) := by
  simp [interpreter, load, h]
  rfl

theorem load_of_error {source : String} {e : SourceError} (h : decode source.toList = .error e)
    (m : Machine) : (interpreter.load source).on m = (.error e, m) := by
  simp [interpreter, load, h]
  rfl

/-- The machines that hold a program, with the fallbacks that a new machine gives its queues. -/
def view (code : Array Instruction) : View Machine Contents where
  fits m := m.program = code ∧ m.Standard
  position := Machine.pc
  data := Machine.contents

variable {code : Array Instruction}

theorem view_performs {k : Nat} {c : brackets.Plain} (hc : code[k]? = some (.simple c.val)) :
    (view code).Performs interpreter meaning k c := by
  constructor
  · rintro d d' hd m ⟨⟨rfl, hm⟩, rfl, rfl⟩
    have hs := step_other (simple_ne_loop c.val) (simple_ne_endLoop c.val) hc
    obtain ⟨hr, hd', hp, -, ht⟩ := perform_follows (.simple c.val) m hm
    rw [show (Contents.perform (.simple c.val)).on m.contents = _ from hd] at hr hd'
    rcases hcall : (perform (.simple c.val)).on m with ⟨result, t⟩
    rw [hcall] at hr hd' hp ht hs
    obtain rfl : result = .ok () := hr
    exact ⟨_, hs, ⟨hp, ht⟩, rfl, hd'⟩
  · rintro d e d' hd m ⟨⟨rfl, hm⟩, rfl, rfl⟩
    have hs := step_other (simple_ne_loop c.val) (simple_ne_endLoop c.val) hc
    obtain ⟨hr, hd', -⟩ := perform_follows (.simple c.val) m hm
    rw [show (Contents.perform (.simple c.val)).on m.contents = _ from hd] at hr hd'
    rcases hcall : (perform (.simple c.val)).on m with ⟨result, t⟩
    rw [hcall] at hr hd' hs
    obtain rfl : result = .error e := hr
    exact ⟨_, hs, hd'⟩

/-- A peek of an empty queue makes up its value and changes nothing, so a test never fails. -/
theorem view_tests {k stop : Nat} {c : brackets.Opener}
    (hc : code[k]? = some (.loop (testOf c) stop)) :
    (view code).Tests interpreter meaning k c (k + 1) (stop + 1) := by
  rintro d m ⟨⟨rfl, hm⟩, rfl, rfl⟩
  have hs := step_loop hc
  obtain ⟨hr, hd, hp, -, ht⟩ := testValue_follows (testOf c) m hm
  rcases hcall : (testValue (testOf c)).on m with ⟨result, t⟩
  rw [hcall] at hr hd hp ht hs
  obtain rfl : result = .ok (m.contents.tested (testOf c)) := hr
  refine ⟨_, hs, ⟨hp, ht⟩, ?_, hd⟩
  by_cases hz : m.contents.tested (testOf c) = 0 <;> simp [view, meaning, goTo, hz]

theorem view_goes_back {k start : Nat} (hc : code[k]? = some (.endLoop start)) (d : Contents) :
    (view code).Goes interpreter k d start d := by
  rintro m ⟨⟨rfl, hm⟩, rfl, rfl⟩
  exact ⟨m.goTo start, step_endLoop hc, ⟨rfl, hm⟩, rfl, rfl⟩

theorem view_lays (program : Program) {k : Nat}
    (h : instructions k program <+: code.toList.drop k) :
    (view code).Lays interpreter meaning k program := by
  induction program generalizing k with
  | done => trivial
  | command c rest ih =>
    rw [instructions, cons_prefix_drop_iff, Array.getElem?_toList] at h
    exact ⟨view_performs h.1, ih h.2⟩
  | loop test body rest ihbody ihrest =>
    have hk : k + 1 + body.size = k + body.size + 1 := by omega
    rw [instructions, cons_prefix_drop_iff, append_prefix_drop_iff, cons_prefix_drop_iff,
      length_instructions, hk, Array.getElem?_toList, Array.getElem?_toList] at h
    obtain ⟨hopen, hbody, hclose, hrest⟩ := h
    exact ⟨view_tests hopen, ihbody hbody, .inr (view_goes_back hclose), ihrest hrest⟩

theorem view_halts {k : Nat} (hk : code.size ≤ k) (d : Contents) :
    (view code).Halts interpreter k d := by
  rintro m ⟨⟨rfl, hm⟩, rfl, rfl⟩
  have hc : m.program[m.pc]? = none := Array.getElem?_eq_none hk
  exact ⟨m, by simp [interpreter, step, hc], rfl⟩

/-- A source that decodes is the text of one program. Loaded into a machine, it ends like the
program, in a halt or in an error, whatever the register, the queues and the streams hold. -/
theorem queue_ends_iff_program_runs (source : String) (code : Array Instruction)
    (h : decode source.toList = .ok code) :
    ∃ program : Program, brackets.text program = source.toList ∧
      (∀ other, brackets.text other = source.toList → other = program) ∧
      ∀ m : Machine, m.Standard →
        (interpreter.load source).on m = (.ok (), { m with program := code, pc := 0 }) ∧
        ∀ (result : Except Error Unit) (d : Contents),
          (∃ t, interpreter.Ends { m with program := code, pc := 0 } result t ∧ t.contents = d) ↔
            program.Runs meaning m.contents result d := by
  obtain ⟨program, hp⟩ := exists_text_of_decode h
  have hcode : code = (instructions 0 program).toArray := by
    rw [← hp, decode_text] at h
    exact (Except.ok.inj h).symm
  refine ⟨program, hp, fun other ho => brackets.text_injective (ho.trans hp.symm), ?_⟩
  intro m hm
  refine ⟨load_of_ok h m, fun result d => ?_⟩
  have hl : (view code).Lays interpreter meaning 0 program := view_lays program (by simp [hcode])
  refine hl.ends_iff (fun d => view_halts ?_ d) ⟨⟨rfl, hm⟩, rfl, rfl⟩
  simp [hcode, length_instructions]

theorem queue_nested_loops_run :
    decode "7(6,xx".toList =
        .ok #[.loop .register 5, .decrement, .loop (.peek .c) 4, .add .c, .endLoop 2, .endLoop 0] ∧
      Standard { register := 2, input := .ofText ['a'], output := {} } ∧
      ∃ program : Program, brackets.text program = "7(6,xx".toList ∧
        ∀ (result : Except Error Unit) (d : Contents),
          (∃ t, interpreter.Ends
            { program := #[.loop .register 5, .decrement, .loop (.peek .c) 4, .add .c, .endLoop 2,
                .endLoop 0]
              register := 2, input := .ofText ['a'], output := {} } result t ∧ t.contents = d) ↔
            program.Runs meaning ⟨2, fun _ => [], .ofText ['a'], {}⟩ result d := by
  have h : decode "7(6,xx".toList =
      .ok #[.loop .register 5, .decrement, .loop (.peek .c) 4, .add .c, .endLoop 2, .endLoop 0] := by
    rfl
  have hs : Standard { register := 2, input := .ofText ['a'], output := {} } :=
    standard_new _ _ _
  obtain ⟨program, hp, -, hm⟩ := queue_ends_iff_program_runs "7(6,xx" _ h
  exact ⟨h, hs, program, hp, contents_new 2 _ _ ▸ (hm _ hs).2⟩

end Machine

end Esolang.Queue
