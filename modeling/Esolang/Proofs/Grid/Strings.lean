import Mathlib.Data.Int.ModEq
import Mathlib.Data.Nat.Find
import Mathlib.Logic.Function.Iterate
import Mathlib.Order.Bounds.Basic
import Esolang.Proofs.Course
import Esolang.Proofs.Grid.Division

/-! String mode on the Befunge machine. From a double quote on, the machine pushes the characters
that its cursor passes, whatever instructions they are, until the cursor meets a double quote again.
On a playfield whose edges meet this happens at the latest when it is back where it started. -/

namespace Esolang.Grid

namespace Playfield

variable {f : Playfield} {x y : Nat}

/-- The place so many moves away. -/
def ahead (f : Playfield) (direction : Direction) (k : Nat) : Nat × Nat → Nat × Nat :=
  (fun place => f.neighbour place.1 place.2 direction)^[k]

/-- The number of moves that lead once round the playfield. -/
def extent (f : Playfield) : Direction → Nat
  | .right | .left => f.width
  | .up | .down => f.height

theorem ahead_succ (direction : Direction) (k : Nat) (place : Nat × Nat) :
    f.ahead direction (k + 1) place =
      f.neighbour (f.ahead direction k place).1 (f.ahead direction k place).2 direction :=
  Function.iterate_succ_apply' _ k place

theorem toNat_emod_step {size : Nat} (h : 0 < size) (a d : Int) :
    ((((a % size).toNat : Int) + d) % size).toNat = ((a + d) % size).toNat := by
  have hne : (size : Int) ≠ 0 := by omega
  rw [Int.toNat_of_nonneg (Int.emod_nonneg a hne), Int.emod_add_emod]

theorem toNat_emod_eq_iff {size a : Nat} (h : a < size) (d : Int) :
    ((a + d : Int) % size).toNat = a ↔ (size : Int) ∣ d := by
  have hne : (size : Int) ≠ 0 := by omega
  have hnonneg := Int.emod_nonneg (a + d : Int) hne
  have ha : (a : Int) % size = a := Int.emod_eq_of_lt (by omega) (by omega)
  calc ((a + d : Int) % size).toNat = a
      ↔ (a : Int) % size = (a + d : Int) % size := by omega
    _ ↔ (size : Int) ∣ (a + d) - a := Int.modEq_iff_dvd
    _ ↔ (size : Int) ∣ d := by rw [add_sub_cancel_left]

theorem ahead_eq (hx : x < f.width) (hy : y < f.height) (direction : Direction) (k : Nat) :
    f.ahead direction k (x, y) =
      (((x + k * direction.delta.1 : Int) % f.width).toNat,
        ((y + k * direction.delta.2 : Int) % f.height).toNat) := by
  induction k with
  | zero =>
    have hx' := (toNat_emod_eq_iff hx 0).mpr (dvd_zero _)
    have hy' := (toNat_emod_eq_iff hy 0).mpr (dvd_zero _)
    simp only [Nat.cast_zero, zero_mul, hx', hy']
    rfl
  | succ k ih =>
    have hnext (d : Int) : ((k + 1 : Nat) : Int) * d = k * d + d := by
      rw [Nat.cast_succ, add_one_mul]
    rw [ahead_succ, ih, neighbour, hnext, hnext, ← add_assoc, ← add_assoc]
    simp only [toNat_emod_step (Nat.zero_lt_of_lt hx), toNat_emod_step (Nat.zero_lt_of_lt hy)]

/-- The moves lead back to where they start after each whole round and nowhere in between. -/
theorem ahead_eq_self_iff (hx : x < f.width) (hy : y < f.height) (direction : Direction)
    (k : Nat) : f.ahead direction k (x, y) = (x, y) ↔ f.extent direction ∣ k := by
  rw [ahead_eq hx hy, Prod.mk.injEq, toNat_emod_eq_iff hx, toNat_emod_eq_iff hy]
  cases direction <;> simp [Direction.delta, extent, Int.natCast_dvd_natCast]

theorem extent_pos (hx : x < f.width) (hy : y < f.height) (direction : Direction) :
    0 < f.extent direction := by
  cases direction <;> simp only [extent] <;> omega

end Playfield

namespace Machine

variable {m : Machine}

/-- The place that so many moves of the cursor lead to. -/
def placeAhead (m : Machine) (k : Nat) : Nat × Nat := m.field.ahead m.direction k (m.x, m.y)

def charAhead (m : Machine) (k : Nat) : Char :=
  m.field.get (m.placeAhead k).1 (m.placeAhead k).2

/-- So many characters in front of the cursor, the nearest one first. -/
def textAhead (m : Machine) (n : Nat) : List Char :=
  (List.range n).map fun i => m.charAhead (i + 1)

/-- The machine so many moves further on, where a text has been pushed on the way. -/
def behindText (text : List Char) (k : Nat) (m : Machine) : Machine :=
  { m with
    x := (m.placeAhead k).1
    y := (m.placeAhead k).2
    stack := (text.map wordOf).reverse ++ m.stack }

/-- The machine in string mode, with so many characters of the text in front of it pushed. -/
def reading (n : Nat) (m : Machine) : Machine :=
  ({ m with stringMode := true }).behindText (m.textAhead n) (n + 1)

theorem textAhead_succ (m : Machine) (n : Nat) :
    m.textAhead (n + 1) = m.textAhead n ++ [m.charAhead (n + 1)] := by
  simp [textAhead, List.range_succ]

theorem placeAhead_succ (m : Machine) (k : Nat) :
    m.placeAhead (k + 1) =
      m.field.neighbour (m.placeAhead k).1 (m.placeAhead k).2 m.direction :=
  Playfield.ahead_succ m.direction k (m.x, m.y)

theorem behindText_advance (text : List Char) (k : Nat) (m : Machine) :
    (m.behindText text k).advance = m.behindText text (k + 1) := by
  rw [behindText, behindText, placeAhead_succ]
  rfl

theorem behindText_push (text : List Char) (c : Char) (k : Nat) (m : Machine) :
    (m.behindText text k).push (wordOf c) = m.behindText (text ++ [c]) k := by
  simp [behindText, push]

theorem charAhead_extent (hx : m.x < m.field.width) (hy : m.y < m.field.height) :
    m.charAhead (m.field.extent m.direction) = m.here := by
  have hback := (Playfield.ahead_eq_self_iff hx hy m.direction _).mpr dvd_rfl
  rw [charAhead, placeAhead, hback, here]

theorem reading_push_advance (n : Nat) (m : Machine) :
    ((m.reading n).push (wordOf (m.charAhead (n + 1)))).advance = m.reading (n + 1) := by
  rw [reading, behindText_push, behindText_advance, ← textAhead_succ, reading]

theorem reading_close_advance (n : Nat) (m : Machine) :
    ({ m.reading n with stringMode := false }).advance =
      ({ m with stringMode := false }).behindText (m.textAhead n) (n + 2) :=
  behindText_advance (m.textAhead n) (n + 1) { m with stringMode := false }

/-! What one step does at the opening quote, on a character of the text and at the closing quote. -/

theorem step_on_opening (hs : m.stringMode = false) (hq : m.here = '\x22') :
    step.on m = (.ok .proceed, m.reading 0) := by
  rw [step_on, hs, hq]
  rfl

theorem step_on_reading (n : Nat) (m : Machine) :
    step.on (m.reading n) =
      (.ok .proceed, ((m.reading n).readString (m.charAhead (n + 1))).advance) := by
  rw [step_on]
  rfl

theorem step_on_text {n : Nat} (hc : m.charAhead (n + 1) ≠ '\x22') :
    step.on (m.reading n) = (.ok .proceed, m.reading (n + 1)) := by
  rw [step_on_reading, readString, if_neg hc, reading_push_advance]

theorem step_on_closing {n : Nat} (hc : m.charAhead (n + 1) = '\x22') :
    step.on (m.reading n) =
      (.ok .proceed, ({ m with stringMode := false }).behindText (m.textAhead n) (n + 2)) := by
  rw [step_on_reading, readString, if_pos hc, reading_close_advance]

/-- As long as the text goes on. By induction on the characters that are pushed. -/
theorem after_eq_reading (hs : m.stringMode = false) (hq : m.here = '\x22') (n : Nat)
    (htext : ∀ i, 1 ≤ i → i ≤ n → m.charAhead i ≠ '\x22') :
    interpreter.after (n + 1) m = m.reading n := by
  induction n with
  | zero => exact congrArg Prod.snd (step_on_opening hs hq)
  | succ n ih =>
    have hbefore := ih fun i h1 hi => htext i h1 (by omega)
    rw [Interpreter.after, hbefore]
    exact congrArg Prod.snd (step_on_text (htext (n + 1) (by omega) (by omega)))

/-- So many moves on, and at least one, the cursor is at a double quote. -/
def MeetsQuote (m : Machine) (k : Nat) : Prop := 1 ≤ k ∧ m.charAhead k = '\x22'

instance (m : Machine) : DecidablePred m.MeetsQuote := fun _ => inferInstanceAs (Decidable (_ ∧ _))

/-- The cursor is back at the opening quote after a whole round. -/
theorem meetsQuote_extent (hx : m.x < m.field.width) (hy : m.y < m.field.height)
    (hq : m.here = '\x22') : m.MeetsQuote (m.field.extent m.direction) :=
  ⟨Playfield.extent_pos hx hy m.direction, (charAhead_extent hx hy).trans hq⟩

theorem exists_isLeast_meetsQuote (hx : m.x < m.field.width) (hy : m.y < m.field.height)
    (hq : m.here = '\x22') : ∃ k, IsLeast {k | m.MeetsQuote k} k :=
  have hmeets := meetsQuote_extent hx hy hq
  ⟨_, Nat.find_spec ⟨_, hmeets⟩, fun _ hk => Nat.find_min' ⟨_, hmeets⟩ hk⟩

/-- From a double quote on, the machine reads a text up to the place where its cursor meets a double
quote for the first time, which is where it started if there is no other on its way. It pushes what
stands in between, carries out none of it, and goes on behind the closing quote. -/
theorem string_mode_reads_round (m : Machine) (hx : m.x < m.field.width)
    (hy : m.y < m.field.height) (hs : m.stringMode = false) (hq : m.here = '\x22') :
    ∃ k, IsLeast {k | m.MeetsQuote k} k ∧ k ≤ m.field.extent m.direction ∧
      (m.placeAhead k = (m.x, m.y) ↔ k = m.field.extent m.direction) ∧
      (∀ j ≤ k, (step.on (interpreter.after j m)).1 = .ok .proceed ∧
        ((interpreter.after j m).stringMode = true ↔ 1 ≤ j)) ∧
      interpreter.after (k + 1) m =
        { m with
          x := (m.placeAhead (k + 1)).1
          y := (m.placeAhead (k + 1)).2
          stack := ((m.textAhead (k - 1)).map wordOf).reverse ++ m.stack
          stringMode := false } := by
  obtain ⟨k, hk⟩ := exists_isLeast_meetsQuote hx hy hq
  obtain ⟨n, rfl⟩ : ∃ n, k = n + 1 := ⟨k - 1, by have := hk.1.1; omega⟩
  have hround := hk.2 (meetsQuote_extent hx hy hq)
  have hreading (i : Nat) (hi : i ≤ n) : interpreter.after (i + 1) m = m.reading i := by
    refine after_eq_reading hs hq i fun j h1 hj hc => ?_
    have hle := hk.2 ⟨h1, hc⟩
    omega
  have hclosing := step_on_closing hk.1.2
  refine ⟨n + 1, hk, hround, ?_, fun j hj => ?_, ?_⟩
  · rw [placeAhead, Playfield.ahead_eq_self_iff hx hy]
    constructor
    · exact fun hd => Nat.le_antisymm hround (Nat.le_of_dvd (Nat.succ_pos n) hd)
    · exact fun h => h ▸ dvd_rfl
  · cases j with
    | zero =>
      refine ⟨congrArg Prod.fst (step_on_opening hs hq), ?_⟩
      simp [Interpreter.after, hs]
    | succ i =>
      rw [hreading i (by omega)]
      refine ⟨congrArg Prod.fst (step_on_reading i m), ?_⟩
      simp [reading, behindText]
  · rw [Interpreter.after, hreading n le_rfl]
    exact congrArg Prod.snd hclosing

/-- The only double quote of its row, met again from the other side, and instructions on the way. -/
theorem lone_quote_reads_round :
    (running "<@v\x22" 3).here = '\x22' ∧ (running "<@v\x22" 3).stringMode = false ∧
      (running "<@v\x22" 3).x < (running "<@v\x22" 3).field.width ∧
      (running "<@v\x22" 3).y < (running "<@v\x22" 3).field.height ∧
      interpreter.after 7 (running "<@v\x22" 3) =
        { running "<@v\x22" 3 with x := 2, stack := [32, 32, 60, 64, 118] } := by
  have hx : (running "<@v\x22" 3).x < (running "<@v\x22" 3).field.width := by decide
  have hy : (running "<@v\x22" 3).y < (running "<@v\x22" 3).field.height := by decide
  have hs : (running "<@v\x22" 3).stringMode = false := by decide
  have hq : (running "<@v\x22" 3).here = '\x22' := by decide
  obtain ⟨k, hk, -, -, -, hafter⟩ := string_mode_reads_round _ hx hy hs hq
  have hleast : IsLeast {k | (running "<@v\x22" 3).MeetsQuote k} 6 := by
    refine ⟨by decide, fun j hj => ?_⟩
    by_contra hlt
    have hnone : ∀ j < 6, ¬ (running "<@v\x22" 3).MeetsQuote j := by decide
    exact hnone j (by omega) hj
  obtain rfl := hk.unique hleast
  exact ⟨hq, hs, hx, hy, hafter.trans rfl⟩

end Machine

end Esolang.Grid
