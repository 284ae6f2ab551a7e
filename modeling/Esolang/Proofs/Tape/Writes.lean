import Esolang.Proofs.Tape.Failure
import Esolang.Proofs.Tape.Jumping
import Esolang.Proofs.Tape.Steps

/-! What a Brainfuck program writes. A step changes at most the cell under the pointer, and only if it
carries out a `+`, a `-` or a `,`. The writes since the last load are a record that the tape can be
compared with. -/

namespace Esolang.Tape

inductive Write where
  | increment
  | decrement
  | character (c : Char)
  deriving DecidableEq, Repr

/-- What a cell holds behind a write. -/
def Write.result (width : CellWidth) (before : Int) : Write → Int
  | .increment => width.wrap (before + 1)
  | .decrement => width.wrap (before - 1)
  | .character c => width.wrap c.toNat

namespace Machine

variable {m t : Machine} {log : List (Int × Write)}

/-- What an instruction writes into the cell under the pointer, where it can be carried out. -/
def write? (m : Machine) : Char → Option Write
  | '+' => some .increment
  | '-' => some .decrement
  | ',' => (Source.require.on m.input).1.toOption.map .character
  | _ => none

/-- What the next step writes; a step that fails writes nothing. -/
def written? (m : Machine) : Option Write :=
  match m.code[m.ip]?, (step.on m).1 with
  | some instruction, .ok _ => m.write? instruction
  | _, _ => none

/-- The cell that the next step writes to, and what it writes. -/
def record? (m : Machine) : Option (Int × Write) := m.written?.map (m.pointer, ·)

/-- The machine has come from a newly built one by calls, whatever became of them, and these are the
writes since the last load that succeeded, the last one first. -/
inductive Recorded : List (Int × Write) → Machine → Prop where
  | initial {m : Machine} (h : m.Initial) : Recorded [] m
  | load {log : List (Int × Write)} {m t : Machine} {source : String} (h : Recorded log m)
    (ht : (load source).on m = (.ok (), t)) : Recorded [] t
  | refuse {log : List (Int × Write)} {m t : Machine} {source : String} {e : SourceError}
    (h : Recorded log m) (ht : (load source).on m = (.error e, t)) : Recorded log t
  | step {log : List (Int × Write)} {m : Machine} (h : Recorded log m) :
    Recorded (m.record?.toList ++ log) (step.on m).2
  | finish {log : List (Int × Write)} {m : Machine} (h : Recorded log m) :
    Recorded log (finish.on m).2

theorem Recorded.exists_of_reachable (h : interpreter.Reachable Initial m) :
    ∃ log, Recorded log m := by
  induction h with
  | initial h => exact ⟨[], .initial h⟩
  | @load m _ source ih =>
    obtain ⟨log, hlog⟩ := ih
    show ∃ log, Recorded log ((Machine.load source).on m).2
    rcases hl : (Machine.load source).on m with ⟨_ | _, t⟩
    · exact ⟨log, .refuse hlog hl⟩
    · exact ⟨[], .load hlog hl⟩
  | prepare _ ih => exact ih
  | step _ ih =>
    obtain ⟨log, hlog⟩ := ih
    exact ⟨_, .step hlog⟩
  | finish _ ih =>
    obtain ⟨log, hlog⟩ := ih
    exact ⟨log, .finish hlog⟩

theorem record_of_none (h : m.written? = none) : m.record?.toList ++ log = log := by
  simp [record?, h]

theorem record_of_some {write : Write} (h : m.written? = some write) :
    m.record?.toList ++ log = (m.pointer, write) :: log := by
  simp [record?, h]

/-- The tape behind a write, if there is one. -/
def tapeBehind (m : Machine) : Option Write → Std.TreeMap Int Int
  | none => m.memory
  | some write => m.memory.insert m.pointer (write.result m.width m.current)

theorem Initial.memory (h : m.Initial) : m.memory = ∅ := by
  obtain ⟨config, input, output, h⟩ := h
  rw [ofConfig] at h
  split at h
  · obtain rfl := Except.ok.inj h
    rfl
  · cases h

theorem memory_load {source : String} {t : Machine} (h : (load source).on m = (.ok (), t)) :
    t.memory = ∅ := by
  rw [load_on] at h
  rcases hj : jumpTable source.toList with e | jumps
  · simp [hj] at h
  · rw [hj] at h
    obtain ⟨-, rfl⟩ := Prod.mk.inj h
    rfl

theorem eq_of_load_error {source : String} {e : SourceError} {t : Machine}
    (h : (load source).on m = (.error e, t)) : t = m := by
  rw [load_on] at h
  rcases hj : jumpTable source.toList with d | jumps
  · rw [hj] at h
    exact (Prod.mk.inj h).2.symm
  · simp [hj] at h

theorem memory_jump (m : Machine) : m.jump.memory = m.memory := by
  unfold jump
  split <;> rfl

theorem memory_adjust {delta : Int} (h : (adjust delta).on m = (.ok (), t)) :
    t.memory = m.memory.insert m.pointer (m.width.wrap (m.current + delta)) := by
  rw [adjust_eq] at h
  rcases hv : m.width.add m.current delta with _ | value
  · simp [hv] at h
  · obtain rfl : m.store value = t := by simpa [hv] using h
    rw [CellWidth.eq_of_add hv]
    rfl

theorem memory_read (h : (execute ',').on m = (.ok (), t)) :
    t.memory = m.tapeBehind (m.write? ',') := by
  rw [execute_read] at h
  unfold write?
  rcases hr : Source.require.on m.input with ⟨_ | c, input⟩
  · simp [hr] at h
  · obtain rfl : ({ m with input } : Machine).store (m.width.wrap c.toNat) = t := by
      simpa [hr] using h
    rfl

theorem memory_execute_of_ne {instruction : Char} (hplus : instruction ≠ '+')
    (hminus : instruction ≠ '-') (hcomma : instruction ≠ ',') (m : Machine) :
    ((execute instruction).on m).2.memory = m.memory := by
  unfold execute
  split
  · rfl
  · rfl
  · exact absurd rfl hplus
  · exact absurd rfl hminus
  · rfl
  · exact absurd rfl hcomma
  · rw [Call.on_modify]
    split
    · exact memory_jump m
    · rfl
  · rw [Call.on_modify]
    split
    · rfl
    · exact memory_jump m
  · rfl

/-- An instruction that is carried out writes to the cell under the pointer, or nothing. -/
theorem memory_execute {instruction : Char} (h : (execute instruction).on m = (.ok (), t)) :
    t.memory = m.tapeBehind (m.write? instruction) := by
  by_cases hplus : instruction = '+'
  · subst hplus
    exact memory_adjust h
  · by_cases hminus : instruction = '-'
    · subst hminus
      exact memory_adjust h
    · by_cases hcomma : instruction = ','
      · subst hcomma
        exact memory_read h
      · have hnone : m.write? instruction = none := by simp [write?]
        have hm := memory_execute_of_ne hplus hminus hcomma m
        rw [h] at hm
        rw [hnone, hm]
        rfl

theorem memory_step (m : Machine) : (step.on m).2.memory = m.tapeBehind m.written? := by
  unfold written?
  rcases hs : step.on m with ⟨e | progress, t⟩
  · obtain ⟨input, output, rfl, -⟩ := step_error hs
    rcases m.code[m.ip]? with _ | instruction <;> rfl
  · rw [step_on] at hs
    rcases hc : m.code[m.ip]? with _ | instruction
    · obtain ⟨-, rfl⟩ : Progress.halt = progress ∧ m = t := by simpa [hc] using hs
      rfl
    · rcases hx : (execute instruction).on m with ⟨_ | _, u⟩
      · simp [hc, hx] at hs
      · obtain ⟨-, rfl⟩ : Progress.proceed = progress ∧ u.advance = t := by simpa [hc, hx] using hs
        have hm := memory_execute hx
        exact hm

theorem memory_step_of_none (h : m.written? = none) : (step.on m).2.memory = m.memory := by
  rw [memory_step, h]
  rfl

theorem write?_isSome_iff {instruction : Char} (h : (execute instruction).on m = (.ok (), t)) :
    (m.write? instruction).isSome ↔ instruction = '+' ∨ instruction = '-' ∨ instruction = ',' := by
  unfold write?
  split
  · simp
  · simp
  · rw [execute_read] at h
    rcases hr : Source.require.on m.input with ⟨_ | c, input⟩
    · simp [hr] at h
    · simp [Except.toOption]
  · next hplus hminus hcomma => simpa using ⟨hplus, hminus, hcomma⟩

/-- A step writes exactly if it carries out an instruction that writes. -/
theorem written?_isSome_iff (m : Machine) :
    m.written?.isSome ↔ (step.on m).1 = .ok .proceed ∧
      ∃ c, m.code[m.ip]? = some c ∧ (c = '+' ∨ c = '-' ∨ c = ',') := by
  rcases hc : m.code[m.ip]? with _ | c
  · simp [written?, hc]
  · rcases hx : (execute c).on m with ⟨e | _, t⟩
    · have hs : step.on m = (.error e, t) := by simp [step_on, hc, hx]
      simp [written?, hc, hs]
    · have hs : step.on m = (.ok .proceed, t.advance) := by simp [step_on, hc, hx]
      have hwritten : m.written? = m.write? c := by simp [written?, hc, hs]
      rw [hwritten, write?_isSome_iff hx]
      simp [hs]

theorem cell_step {write : Write} (h : m.written? = some write) (index : Int) :
    (step.on m).2.cell index =
      if m.pointer = index then write.result m.width m.current else m.cell index := by
  rw [cell, memory_step, h]
  exact cell_store _ index m

theorem mem_memory_step (m : Machine) (index : Int) :
    index ∈ (step.on m).2.memory ↔ (m.written?.isSome ∧ m.pointer = index) ∨ index ∈ m.memory := by
  rw [memory_step]
  rcases m.written? with _ | write
  · simp [tapeBehind]
  · simp [tapeBehind, Std.TreeMap.mem_insert]

end Machine

end Esolang.Tape
