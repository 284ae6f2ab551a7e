import Mathlib.Data.Int.ModEq
import Mathlib.Tactic.Positivity
import Esolang.Proofs.Course
import Esolang.Proofs.Tape.Writes

/-! The cells of a tape against the record of what has been written to them. A cell holds the balance
of its writes, wrapped once: the code it was given last, and what has been counted up and down since. -/

namespace Esolang.Tape

namespace CellWidth

theorem wrap_bits {count : Nat} (pos : 0 < count) (le : count ≤ 64) (value : Int) :
    (bits count pos le).wrap value = value % 2 ^ count := by
  rw [wrap, Nat.one_shiftLeft, Int.natCast_pow]
  rfl

theorem wrap_zero (width : CellWidth) : width.wrap 0 = 0 := by
  cases width with
  | bits count pos le => rw [wrap_bits, Int.zero_emod]
  | unbounded => rfl

/-- Wrapping can wait for the end of a sum. -/
theorem wrap_wrap_add (width : CellWidth) (a b : Int) :
    width.wrap (width.wrap a + b) = width.wrap (a + b) := by
  cases width with
  | bits count pos le => rw [wrap_bits, wrap_bits, wrap_bits, Int.emod_add_emod]
  | unbounded => rfl

end CellWidth

namespace Write

def code? : Write → Option Nat
  | .character c => some c.toNat
  | _ => none

/-- The code that a cell has been given last, or zero; the writes have the last one first. -/
def lastCode (writes : List Write) : Nat := (writes.findSome? code?).getD 0

/-- The writes behind the last code. -/
def sinceCode (writes : List Write) : List Write := writes.takeWhile (·.code?.isNone)

def balance (writes : List Write) : Int :=
  lastCode writes + (sinceCode writes).count .increment - (sinceCode writes).count .decrement

theorem balance_nil : balance [] = 0 := rfl

theorem balance_increment (writes : List Write) :
    balance (.increment :: writes) = balance writes + 1 := by
  have hcode : lastCode (.increment :: writes) = lastCode writes := rfl
  have hsince : sinceCode (.increment :: writes) = .increment :: sinceCode writes := rfl
  have hother : Write.increment ≠ .decrement := by decide
  simp only [balance, hcode, hsince, List.count_cons_self, List.count_cons_of_ne hother]
  omega

theorem balance_decrement (writes : List Write) :
    balance (.decrement :: writes) = balance writes - 1 := by
  have hcode : lastCode (.decrement :: writes) = lastCode writes := rfl
  have hsince : sinceCode (.decrement :: writes) = .decrement :: sinceCode writes := rfl
  have hother : Write.decrement ≠ .increment := by decide
  simp only [balance, hcode, hsince, List.count_cons_self, List.count_cons_of_ne hother]
  omega

theorem balance_character (c : Char) (writes : List Write) :
    balance (.character c :: writes) = c.toNat := by
  have hcode : lastCode (.character c :: writes) = c.toNat := rfl
  have hsince : sinceCode (.character c :: writes) = [] := rfl
  simp [balance, hcode, hsince]

theorem result_wrap_balance (width : CellWidth) (write : Write) (writes : List Write) :
    write.result width (width.wrap (balance writes)) = width.wrap (balance (write :: writes)) := by
  cases write with
  | increment =>
    rw [balance_increment]
    exact width.wrap_wrap_add _ 1
  | decrement =>
    rw [balance_decrement]
    exact width.wrap_wrap_add _ (-1)
  | character c => rw [balance_character, result]

end Write

/-- The writes of a record to one cell. -/
def writesTo (index : Int) (log : List (Int × Write)) : List Write :=
  (log.filter (·.1 = index)).map Prod.snd

theorem writesTo_cons (index pointer : Int) (write : Write) (log : List (Int × Write)) :
    writesTo index ((pointer, write) :: log) =
      if pointer = index then write :: writesTo index log else writesTo index log := by
  by_cases hp : pointer = index
  · simp [writesTo, hp]
  · simp [writesTo, hp]

namespace Machine

variable {m : Machine} {log : List (Int × Write)}

theorem width_step (m : Machine) : (step.on m).2.width = m.width := step_keeps_width m rfl

theorem cell_of_memory_empty (h : m.memory = ∅) (index : Int) : m.cell index = 0 := by
  rw [cell, h]
  exact Std.TreeMap.getD_emptyc

theorem cell_eq_of_memory_empty (h : m.memory = ∅) (index : Int) :
    m.cell index = m.width.wrap (Write.balance (writesTo index [])) := by
  rw [cell_of_memory_empty h, writesTo, List.filter_nil, List.map_nil, Write.balance_nil,
    CellWidth.wrap_zero]

/-- In every state a cell holds its balance. By induction on the calls: a step writes to one cell at
most, and what it writes is the next balance of that cell. -/
theorem Recorded.cell_eq (h : Recorded log m) (index : Int) :
    m.cell index = m.width.wrap (Write.balance (writesTo index log)) := by
  induction h with
  | initial h => exact cell_eq_of_memory_empty h.memory index
  | load _ ht _ => exact cell_eq_of_memory_empty (memory_load ht) index
  | refuse _ ht ih => rwa [eq_of_load_error ht]
  | @step log m _ ih =>
    rw [width_step]
    rcases hw : m.written? with _ | write
    · have hcell : (Machine.step.on m).2.cell index = m.cell index := by
        rw [cell, cell, memory_step_of_none hw]
      rw [hcell, ih, record_of_none hw]
    · rw [cell_step hw, record_of_some hw, writesTo_cons]
      split
      · next hp =>
        rw [current, hp, ih, Write.result_wrap_balance]
      · exact ih
  | finish _ ih => exact ih

/-- With cells of a bounded width every reachable state has each cell in range, so that the next
addition fits in the carrier and no step overflows; and a cell holds, modulo its range, the code it was
given last and what has been counted since. -/
theorem cells_balance_writes (count : Nat) (pos : 0 < count) (le : count ≤ 64) (m : Machine)
    (h : interpreter.Reachable Initial m) (hw : m.width = .bits count pos le) :
    (∀ index, 0 ≤ m.cell index ∧ m.cell index < 2 ^ count) ∧
    (∀ index, ∀ delta ∈ [(1 : Int), -1], -CellWidth.carrierBound ≤ m.cell index + delta ∧
      m.cell index + delta < CellWidth.carrierBound) ∧
    (step.on m).1 ≠ .error (.fault .cellOverflow) ∧
    (∃ log, Recorded log m) ∧
    ∀ log, Recorded log m → ∀ index,
      m.cell index ≡ Write.lastCode (writesTo index log) +
        (Write.sinceCode (writesTo index log)).count .increment -
        (Write.sinceCode (writesTo index log)).count .decrement [ZMOD 2 ^ count] := by
  have hcell : ∀ log, Recorded log m → ∀ index,
      m.cell index = Write.balance (writesTo index log) % 2 ^ count := by
    intro log hlog index
    rw [hlog.cell_eq, hw, CellWidth.wrap_bits]
  obtain ⟨log, hlog⟩ := Recorded.exists_of_reachable h
  have hrange : ∀ index, 0 ≤ m.cell index ∧ m.cell index < 2 ^ count := by
    intro index
    rw [hcell log hlog]
    exact ⟨Int.emod_nonneg _ (by positivity), Int.emod_lt_of_pos _ (by positivity)⟩
  have hpow : (2 : Int) ^ count ≤ 2 ^ 64 := pow_le_pow_right₀ (by decide) le
  refine ⟨hrange, ?_, step_bits_ne_overflow hw, ⟨log, hlog⟩, ?_⟩
  · intro index delta hdelta
    have hr := hrange index
    have hd : delta = 1 ∨ delta = -1 := by simpa using hdelta
    unfold CellWidth.carrierBound
    omega
  · intro log hlog index
    rw [hcell log hlog]
    exact Int.mod_modEq _ _

/-- Cells of three bits: one that is given a code above their range and counted up, and one that is
counted down below zero. -/
def threeBits : Machine :=
  interpreter.after 6 ((load ",+++>-").on
    { width := .bits 3 (by decide) (by decide), input := .ofText ['é'], output := {} }).2

theorem three_bits_balance_writes :
    interpreter.Reachable Initial threeBits ∧
      threeBits.width = .bits 3 (by decide) (by decide) ∧
      Recorded [(1, .decrement), (0, .increment), (0, .increment), (0, .increment),
        (0, .character 'é')] threeBits ∧
      threeBits.cell 0 ≡ 233 + 3 - 0 [ZMOD 2 ^ 3] ∧ threeBits.cell 1 ≡ 0 + 0 - 1 [ZMOD 2 ^ 3] ∧
      0 ≤ threeBits.cell 1 ∧ threeBits.cell 1 < 2 ^ 3 := by
  have hinitial : Initial
      { width := .bits 3 (by decide) (by decide), input := .ofText ['é'], output := {} } :=
    ⟨{ cellBits := some 3 }, _, _, rfl⟩
  have h : interpreter.Reachable Initial threeBits :=
    .step (.step (.step (.step (.step (.step (.load (.initial hinitial) ",+++>-"))))))
  have hlog : Recorded [(1, .decrement), (0, .increment), (0, .increment), (0, .increment),
      (0, .character 'é')] threeBits := by
    have hsteps := Recorded.step (.step (.step (.step (.step (.step
      (.load (.initial hinitial) (show (load ",+++>-").on _ = (.ok (), _) from rfl)))))))
    exact cast (congrArg (Recorded · threeBits) (by decide +kernel)) hsteps
  have hw : threeBits.width = .bits 3 (by decide) (by decide) := by decide +kernel
  obtain ⟨hrange, -, -, -, hbalance⟩ :=
    cells_balance_writes 3 (by decide) (by decide) threeBits h hw
  exact ⟨h, hw, hlog, hbalance _ hlog 0, hbalance _ hlog 1, hrange 1⟩

end Machine

end Esolang.Tape
