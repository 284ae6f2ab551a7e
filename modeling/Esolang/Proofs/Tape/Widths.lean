import Esolang.Proofs.Tape.Cells

/-! Two widths under one program. A program that neither tests cells nor writes them out takes the same
course on machines of different widths that get the same input, and the cells of the narrower machine
are the remainders of those of the wider one. -/

namespace Esolang.Tape

/-- Cells of a width have at least so many bits. -/
def CellWidth.Covers (count : Nat) : CellWidth → Prop
  | .bits wider _ _ => count ≤ wider
  | .unbounded => True

theorem CellWidth.Covers.wrap_emod {count : Nat} {width : CellWidth} (h : width.Covers count)
    (value : Int) : width.wrap value % 2 ^ count = value % 2 ^ count := by
  cases width with
  | bits wider pos le =>
    rw [wrap_bits]
    exact Int.emod_emod_of_dvd value (pow_dvd_pow 2 h)
  | unbounded => rfl

/-- An instruction whose effect on anything but cells does not depend on them. -/
def Blind (c : Char) : Prop := c ≠ '[' ∧ c ≠ ']' ∧ c ≠ '.'

namespace Machine

variable {count : Nat} {m t : Machine}

/-- The first machine has cells of so many bits, the second one wider cells, and both have come the
same way through a program without tests and output. -/
structure Narrows (count : Nat) (m t : Machine) : Prop where
  width : ∃ pos le, m.width = .bits count pos le
  covers : t.width.Covers count
  code : t.code = m.code
  blind : ∀ (i : Nat) c, m.code[i]? = some c → Blind c
  ip : t.ip = m.ip
  pointer : t.pointer = m.pointer
  input : t.input = m.input
  touched : ∀ index, index ∈ m.memory ↔ index ∈ t.memory
  cell : ∀ index, m.cell index = t.cell index % 2 ^ count

namespace Narrows

theorem current (h : Narrows count m t) : m.current = t.current % 2 ^ count := by
  rw [Machine.current, Machine.current, h.pointer, h.cell]

theorem advance (h : Narrows count m t) : Narrows count m.advance t.advance :=
  ⟨h.width, h.covers, h.code, h.blind, congrArg (· + 1) h.ip, h.pointer, h.input, h.touched, h.cell⟩

theorem move (h : Narrows count m t) (delta : Int) : Narrows count (m.move delta) (t.move delta) :=
  ⟨h.width, h.covers, h.code, h.blind, h.ip, congrArg (· + delta) h.pointer, h.input, h.touched,
    h.cell⟩

theorem withInput (h : Narrows count m t) (input : Source) :
    Narrows count { m with input } { t with input } :=
  ⟨h.width, h.covers, h.code, h.blind, h.ip, h.pointer, rfl, h.touched, h.cell⟩

theorem store (h : Narrows count m t) {value wider : Int} (hv : value = wider % 2 ^ count) :
    Narrows count (m.store value) (t.store wider) := by
  refine ⟨h.width, h.covers, h.code, h.blind, h.ip, h.pointer, h.input, fun index => ?_,
    fun index => ?_⟩
  · simp [Machine.store, Std.TreeMap.mem_insert, h.pointer, h.touched]
  · rw [cell_store, cell_store, h.pointer]
    split
    · exact hv
    · exact h.cell index

end Narrows

/-- A call does the same on a narrower machine, unless it overflows the wider one. -/
def Agrees (count : Nat) (call : Call Machine Error Unit) : Prop :=
  ∀ m t, Narrows count m t → (call.on t).1 ≠ .error (.fault .cellOverflow) →
    (call.on m).1 = (call.on t).1 ∧ Narrows count (call.on m).2 (call.on t).2

theorem adjust_agrees (delta : Int) : Agrees count (adjust delta) := by
  intro m t h hno
  obtain ⟨pos, le, hw⟩ := h.width
  rw [adjust_eq] at hno
  rw [adjust_eq, adjust_eq, hw, CellWidth.add_bits]
  rcases hv : t.width.add t.current delta with _ | wider
  · simp [hv] at hno
  · refine ⟨rfl, h.store ?_⟩
    calc (CellWidth.bits count pos le).wrap (m.current + delta)
        = (t.current % 2 ^ count + delta) % 2 ^ count := by rw [CellWidth.wrap_bits, h.current]
      _ = (t.current + delta) % 2 ^ count := Int.emod_add_emod _ _ _
      _ = t.width.wrap (t.current + delta) % 2 ^ count := (h.covers.wrap_emod _).symm
      _ = wider % 2 ^ count := by rw [CellWidth.eq_of_add hv]

theorem read_agrees : Agrees count (execute ',') := by
  intro m t h _
  obtain ⟨pos, le, hw⟩ := h.width
  rw [execute_read, execute_read, h.input]
  rcases Source.require.on m.input with ⟨e | c, input⟩
  · exact ⟨rfl, h.withInput input⟩
  · refine ⟨rfl, (h.withInput input).store ?_⟩
    rw [hw, CellWidth.wrap_bits, h.covers.wrap_emod]

theorem execute_agrees {instruction : Char} (hb : Blind instruction) :
    Agrees count (execute instruction) := by
  obtain ⟨hopen, hclose, hdot⟩ := hb
  unfold execute
  split
  · exact fun _ _ h _ => ⟨rfl, h.move 1⟩
  · exact fun _ _ h _ => ⟨rfl, h.move (-1)⟩
  · exact adjust_agrees 1
  · exact adjust_agrees (-1)
  · exact absurd rfl hdot
  · exact read_agrees
  · exact absurd rfl hopen
  · exact absurd rfl hclose
  · exact fun _ _ h _ => ⟨rfl, h⟩

theorem Narrows.step (h : Narrows count m t)
    (hno : (step.on t).1 ≠ .error (.fault .cellOverflow)) :
    (Machine.step.on m).1 = (Machine.step.on t).1 ∧
      Narrows count (Machine.step.on m).2 (Machine.step.on t).2 := by
  rw [step_on, h.code, h.ip] at hno
  rw [step_on, step_on, h.code, h.ip]
  rcases hc : m.code[m.ip]? with _ | instruction
  · exact ⟨rfl, h⟩
  · have hexecute : ((execute instruction).on t).1 ≠ .error (.fault .cellOverflow) := by
      intro hoverflow
      rcases ht : (execute instruction).on t with ⟨_ | _, v⟩
      · rw [ht] at hoverflow
        obtain rfl := Except.error.inj hoverflow
        simp [hc, ht] at hno
      · simp [ht] at hoverflow
    obtain ⟨hresult, hnarrows⟩ := execute_agrees (h.blind m.ip instruction hc) m t h hexecute
    rcases hm : (execute instruction).on m with ⟨result, u⟩
    rcases ht : (execute instruction).on t with ⟨other, v⟩
    rw [hm, ht] at hresult hnarrows
    obtain rfl : result = other := hresult
    cases result with
    | error e => simpa [hm, ht] using hnarrows
    | ok _ => simpa [hm, ht] using hnarrows.advance

theorem width_after (m : Machine) (k : Nat) : (interpreter.after k m).width = m.width := by
  induction k with
  | zero => rfl
  | succ k ih => exact (width_step _).trans ih

/-- By induction on the number of steps. Only where the wider cells have no bound is there an overflow
to rule out. -/
theorem Narrows.after (h : Narrows count m t) (steps : Nat)
    (hno : ∀ k < steps, t.width = .unbounded →
      (Machine.step.on (interpreter.after k t)).1 ≠ .error (.fault .cellOverflow)) :
    (∀ k < steps, (Machine.step.on (interpreter.after k m)).1 =
        (Machine.step.on (interpreter.after k t)).1) ∧
      Narrows count (interpreter.after steps m) (interpreter.after steps t) := by
  induction steps with
  | zero => exact ⟨fun _ hk => absurd hk (Nat.not_lt_zero _), h⟩
  | succ steps ih =>
    obtain ⟨hsame, hnarrows⟩ := ih fun k hk => hno k (Nat.lt_succ_of_lt hk)
    have hlast : (Machine.step.on (interpreter.after steps t)).1 ≠
        .error (.fault .cellOverflow) := by
      cases hw : t.width with
      | bits wider pos le => exact step_bits_ne_overflow ((width_after t steps).trans hw)
      | unbounded => exact hno steps (Nat.lt_succ_self steps) hw
    obtain ⟨hstep, hnext⟩ := hnarrows.step hlast
    refine ⟨fun k hk => ?_, hnext⟩
    rcases Nat.lt_succ_iff_lt_or_eq.mp hk with hlt | rfl
    · exact hsame k hlt
    · exact hstep

theorem balanced_of_blind {code : List Char} (h : ∀ c ∈ code, Blind c) : brackets.Balanced code := by
  induction code with
  | nil => exact brackets.balanced_text .done
  | cons c code ih =>
    obtain ⟨hopen, hclose, -⟩ := h c List.mem_cons_self
    have hplain : brackets.opens c = false ∧ c ≠ brackets.closer :=
      ⟨by simpa [brackets] using hopen, hclose⟩
    exact (brackets.balanced_plain hplain).append (ih fun d hd => h d (List.mem_cons_of_mem c hd))

theorem narrows_load {source : String} {jumps : Array (Option Nat)} {pos : 0 < count}
    {le : count ≤ 64} (hm : m.width = .bits count pos le) (ht : t.width.Covers count)
    (hi : t.input = m.input) (hs : ∀ c ∈ source.toList, Blind c) :
    Narrows count
      { m with code := source.toList.toArray, jumps, ip := 0, pointer := 0, memory := ∅ }
      { t with code := source.toList.toArray, jumps, ip := 0, pointer := 0, memory := ∅ } := by
  refine ⟨⟨pos, le, hm⟩, ht, rfl, fun i c hc => ?_, rfl, rfl, hi, fun index => ?_, fun index => ?_⟩
  · rw [List.getElem?_toArray] at hc
    exact hs c (List.mem_of_getElem? hc)
  · exact Iff.rfl
  · rw [cell_of_memory_empty rfl, cell_of_memory_empty rfl]
    rfl

/-- Two machines load a program without tests and output, one with cells of so many bits and one with
wider or unbounded cells, and read the same input. As long as no unbounded cell overflows, their steps
have the same results, and behind any number of steps only the values of cells differ: those of the
narrower machine are the remainders of those of the wider one. -/
theorem widths_differ_in_remainders (pos : 0 < count) (le : count ≤ 64) (m t : Machine)
    (hm : m.width = .bits count pos le) (ht : t.width.Covers count) (hi : t.input = m.input)
    (source : String) (hs : ∀ c ∈ source.toList, c ≠ '[' ∧ c ≠ ']' ∧ c ≠ '.') :
    ∃ m' t', (load source).on m = (.ok (), m') ∧ (load source).on t = (.ok (), t') ∧
      ∀ steps, (∀ k < steps, t.width = .unbounded →
          (step.on (interpreter.after k t')).1 ≠ .error (.fault .cellOverflow)) →
        (∀ k < steps, (step.on (interpreter.after k m')).1 =
          (step.on (interpreter.after k t')).1) ∧
        Narrows count (interpreter.after steps m') (interpreter.after steps t') := by
  obtain ⟨jumps, hj⟩ := (jumpTable_ok_iff source.toList).mpr (balanced_of_blind hs)
  refine ⟨_, _, by rw [load_on, hj], by rw [load_on, hj], fun steps hno => ?_⟩
  exact (narrows_load hm ht hi hs).after steps hno

/-- A machine that can read one character. -/
def reading (width : CellWidth) : Machine := { width, input := .ofText ['é'], output := {} }

/-- Below zero, above the range, and behind the end of the input. -/
theorem single_bits_differ_in_remainders :
    CellWidth.unbounded.Covers 1 ∧ (∀ c ∈ "-<,>,".toList, c ≠ '[' ∧ c ≠ ']' ∧ c ≠ '.') ∧
      ∃ m t, (load "-<,>,").on (reading (.bits 1 (by decide) (by decide))) = (.ok (), m) ∧
        (load "-<,>,").on (reading .unbounded) = (.ok (), t) ∧
        (∀ k < 5, (step.on (interpreter.after k t)).1 ≠ .error (.fault .cellOverflow)) ∧
        (step.on (interpreter.after 4 m)).1 = .error (.fault .endOfInput) ∧
        (interpreter.after 5 t).cell 0 = -1 ∧ (interpreter.after 5 t).cell (-1) = 233 ∧
        Narrows 1 (interpreter.after 5 m) (interpreter.after 5 t) := by
  have hs : ∀ c ∈ "-<,>,".toList, c ≠ '[' ∧ c ≠ ']' ∧ c ≠ '.' := by simp
  obtain ⟨m, t, hm, ht, hafter⟩ := widths_differ_in_remainders (by decide) (by decide)
    (reading (.bits 1 (by decide) (by decide))) (reading .unbounded) rfl trivial rfl "-<,>," hs
  have ht' : ((load "-<,>,").on (reading .unbounded)).2 = t := by rw [ht]
  have hno : ∀ k < 5, (step.on (interpreter.after k t)).1 ≠ .error (.fault .cellOverflow) := by
    rw [← ht']
    decide +kernel
  have hlast : (step.on (interpreter.after 4 t)).1 = .error (.fault .endOfInput) := by
    rw [← ht']
    decide +kernel
  have hcells : (interpreter.after 5 t).cell 0 = -1 ∧ (interpreter.after 5 t).cell (-1) = 233 := by
    rw [← ht']
    decide +kernel
  obtain ⟨hsame, hnarrows⟩ := hafter 5 fun k hk _ => hno k hk
  exact ⟨trivial, hs, m, t, hm, ht, hno, (hsame 4 (by decide)).trans hlast, hcells.1, hcells.2,
    hnarrows⟩

end Machine

end Esolang.Tape
