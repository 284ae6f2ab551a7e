import Mathlib.Algebra.Order.Ring.Int
import Mathlib.Data.Nat.Size
import Mathlib.Logic.Function.Iterate
import Esolang.Ledger.Machine

/-! Start values of the registers. Coins are flipped for each register in turn until one shows heads or
as many have failed as may fail, and the value that is then drawn has as many binary digits as flips have
failed. The range to draw from is never empty, and its ends are numbers that a register can hold. -/

namespace Esolang.Ledger

/-- Coins are flipped one after the other. One that does not show heads has failed. -/
inductive Flips : Rng → List Bool → Rng → Prop where
  | none (g : Rng) : Flips g [] g
  | flip {g h last : Rng} {heads : Bool} {others : List Bool} (coin : g.coin = (heads, h))
    (rest : Flips h others last) : Flips g (heads :: others) last

/-- Flips that fail, and then one that does not, unless all that may fail have failed. -/
def flipsOf (bound failed : Nat) : List Bool :=
  List.replicate failed false ++ if failed < bound then [true] else []

theorem tails_flips (bound : Nat) (g : Rng) : (tails bound g).1 ≤ bound ∧
    Flips g (flipsOf bound (tails bound g).1) (tails bound g).2 := by
  induction bound generalizing g with
  | zero => exact ⟨Nat.le_refl 0, .none g⟩
  | succ bound ih =>
    rcases hcoin : g.coin with ⟨_ | _, h⟩
    · obtain ⟨hle, hflips⟩ := ih h
      have htails : tails (bound + 1) g = ((tails bound h).1 + 1, (tails bound h).2) := by
        simp [tails, hcoin]
      have hfirst : flipsOf (bound + 1) ((tails bound h).1 + 1) =
          false :: flipsOf bound (tails bound h).1 := by
        simp [flipsOf, List.replicate_succ]
      rw [htails, hfirst]
      exact ⟨Nat.succ_le_succ hle, .flip hcoin hflips⟩
    · have htails : tails (bound + 1) g = (0, h) := by simp [tails, hcoin]
      rw [htails]
      exact ⟨Nat.zero_le _, .flip hcoin (.none h)⟩

/-- Draws a word from `low` on and below `high`. -/
def drawBetween (low high : Int64) (g : Rng) : Int64 × Rng :=
  let (offset, g) := g.below (high.toInt - low.toInt).toNat
  (low + .ofNat offset, g)

theorem drawBetween_mem {low high : Int64} (h : low < high) (g : Rng) :
    low.toInt ≤ (drawBetween low high g).1.toInt ∧ (drawBetween low high g).1.toInt < high.toInt := by
  have hlt : low.toInt < high.toInt := Int64.lt_iff_toInt_lt.mp h
  have hoffset := Rng.below_lt (show 0 < (high.toInt - low.toInt).toNat by omega) g
  have hlow := low.le_toInt
  have hhigh := high.toInt_lt
  dsimp only [drawBetween]
  generalize (g.below (high.toInt - low.toInt).toNat).1 = offset at hoffset ⊢
  have hsum : low + Int64.ofNat offset = Int64.ofInt (low.toInt + offset) := by
    rw [Int64.ofInt_add, Int64.ofInt_toInt, Int64.ofInt_eq_ofNat]
  rw [hsum, Int64.toInt_ofInt_of_le (by omega) (by omega)]
  omega

/-- One, shifted to the left: how the ends of a range are computed. -/
def shiftedOne (count : Nat) : Int64 := 1 <<< Int64.ofNat count

theorem shiftedOne_eq {count : Nat} (h : count ≤ maxDoublings) :
    shiftedOne count = Int64.ofNat (2 ^ count) := by
  have hall : ∀ count < maxDoublings + 1, shiftedOne count = Int64.ofNat (2 ^ count) := by
    decide +kernel
  exact hall count (Nat.lt_succ_of_le h)

theorem toInt_shiftedOne {count : Nat} (h : count ≤ maxDoublings) :
    (shiftedOne count).toInt = 2 ^ count := by
  have hpow : 2 ^ count ≤ 2 ^ maxDoublings := Nat.pow_le_pow_right (by decide) h
  have hfits : 2 ^ maxDoublings < 2 ^ 63 := by decide
  rw [shiftedOne_eq h, Int64.toInt_ofNat_of_lt (Nat.lt_of_le_of_lt hpow hfits)]
  exact Int.natCast_pow 2 count

theorem shiftedOne_lt {count : Nat} (h : count + 1 ≤ maxDoublings) :
    shiftedOne count < shiftedOne (count + 1) := by
  have hpow : (2 : Int) ^ count < 2 ^ (count + 1) := Int.pow_lt_pow_of_lt (by decide) (by omega)
  rw [Int64.lt_iff_toInt_lt, toInt_shiftedOne (by omega), toInt_shiftedOne h]
  exact hpow

theorem randomValue_of_no_tails {g tossed : Rng} (h : tails maxDoublings g = (0, tossed)) :
    randomValue g = (0, tossed) := by
  rw [randomValue, h]

theorem randomValue_of_tails {g tossed : Rng} {count : Nat}
    (h : tails maxDoublings g = (count + 1, tossed)) (hle : count + 1 ≤ maxDoublings) :
    randomValue g = drawBetween (shiftedOne count) (shiftedOne (count + 1)) tossed := by
  have hspan : ((2 : Int) ^ (count + 1) - 2 ^ count).toNat = 1 <<< count := by
    have hdouble : (2 : Int) ^ (count + 1) - 2 ^ count = ((2 ^ count : Nat) : Int) := by
      rw [Int.pow_succ, Int.natCast_pow, Int.cast_ofNat_Int]
      omega
    rw [hdouble, Int.toNat_natCast, Nat.one_shiftLeft]
  have hlow : count ≤ maxDoublings := Nat.le_of_succ_le hle
  rw [randomValue, h, drawBetween, toInt_shiftedOne hlow, toInt_shiftedOne hle, hspan,
    shiftedOne_eq hlow]
  dsimp only
  rw [← Int64.ofNat_add, Nat.one_shiftLeft]

/-- A register is filled: some flips fail, and if any of them has, a word with as many binary digits is
drawn. The ends of the range that it is drawn from are what they are without a bound on words. -/
structure Fills (g : Rng) (failed : Nat) (value : Int64) (last : Rng) : Prop where
  le : failed ≤ maxDoublings
  nonneg : 0 ≤ value.toInt
  size : value.toInt.toNat.size = failed
  draws : ∃ tossed, Flips g (flipsOf maxDoublings failed) tossed ∧
    (failed = 0 → last = tossed) ∧
    ∀ count, failed = count + 1 →
      (shiftedOne count).toInt = 2 ^ count ∧ (shiftedOne failed).toInt = 2 ^ failed ∧
        shiftedOne count < shiftedOne failed ∧
        drawBetween (shiftedOne count) (shiftedOne failed) tossed = (value, last)

theorem size_of_mem {count : Nat} {value : Int64} (hlow : 2 ^ count ≤ value.toInt)
    (hhigh : value.toInt < 2 ^ (count + 1)) :
    0 ≤ value.toInt ∧ value.toInt.toNat.size = count + 1 := by
  have hpos : (0 : Int) < 2 ^ count := Int.pow_pos (by decide)
  have hnat : (value.toInt.toNat : Int) = value.toInt := Int.toNat_of_nonneg (by omega)
  have hle : 2 ^ count ≤ value.toInt.toNat := by
    rw [← Int.ofNat_le, hnat, Int.natCast_pow]
    exact hlow
  have hlt : value.toInt.toNat < 2 ^ (count + 1) := by
    rw [← Int.ofNat_lt, hnat, Int.natCast_pow]
    exact hhigh
  exact ⟨by omega, Nat.le_antisymm (Nat.size_le.mpr hlt) (Nat.lt_size.mpr hle)⟩

theorem randomValue_fills (g : Rng) :
    Fills g (tails maxDoublings g).1 (randomValue g).1 (randomValue g).2 := by
  obtain ⟨hle, hflips⟩ := tails_flips maxDoublings g
  rcases htails : tails maxDoublings g with ⟨_ | count, tossed⟩
  · rw [htails] at hflips
    rw [randomValue_of_no_tails htails]
    exact ⟨Nat.zero_le _, Int.le_refl 0, Nat.size_zero, tossed, hflips, fun _ => rfl, nofun⟩
  · rw [htails] at hle hflips
    have hlow := toInt_shiftedOne (Nat.le_of_succ_le hle)
    have hhigh := toInt_shiftedOne hle
    obtain ⟨hmin, hmax⟩ := drawBetween_mem (shiftedOne_lt hle) tossed
    rw [hlow] at hmin
    rw [hhigh] at hmax
    obtain ⟨hnonneg, hsize⟩ := size_of_mem hmin hmax
    rw [randomValue_of_tails htails hle]
    refine ⟨hle, hnonneg, hsize, tossed, hflips, nofun, fun _ hcount => ?_⟩
    obtain rfl := Nat.succ.inj hcount
    exact ⟨hlow, hhigh, shiftedOne_lt hle, rfl⟩

theorem Fills.lt {g last : Rng} {failed : Nat} {value : Int64} (h : Fills g failed value last) :
    value.toInt < 2 ^ maxDoublings := by
  have hlt : value.toInt.toNat < 2 ^ maxDoublings := Nat.size_le.mp (h.size ▸ h.le)
  rw [← Int.toNat_of_nonneg h.nonneg]
  exact_mod_cast hlt

/-- The generator when so many registers have been filled. -/
def generatorAfter (count : Nat) (g : Rng) : Rng := (fun g => (randomValue g).2)^[count] g

theorem generatorAfter_succ (count : Nat) (g : Rng) :
    generatorAfter (count + 1) g = (randomValue (generatorAfter count g)).2 :=
  Function.iterate_succ_apply' _ count g

/-- An invariant of the turns of a fold, by the number of those that have been taken. -/
theorem foldl_invariant {α : Type} {n : Nat} {f : α → Fin n → α} {a : α} (P : Nat → α → Prop)
    (h : P 0 a) (step : ∀ (i : Fin n) (a : α), P i a → P (i + 1) (f a i)) :
    P n (Fin.foldl n f a) := by
  induction n with
  | zero => exact h
  | succ n ih =>
    rw [Fin.foldl_succ_last]
    exact step (Fin.last n) _ (ih fun i a => step i.castSucc a)

theorem randomRegisters_eq (g : Rng) : (randomRegisters g).2 = generatorAfter 24 g ∧
    ∀ r : Register, (randomRegisters g).1.get r = (randomValue (generatorAfter r g)).1 := by
  have hfold : (randomRegisters g).2 = generatorAfter 24 g ∧ ∀ r : Register, r.val < 24 →
      (randomRegisters g).1.get r = (randomValue (generatorAfter r g)).1 := by
    -- The registers in front of the next one in storage order have their values.
    apply foldl_invariant fun count (filled : Registers × Rng) =>
      filled.2 = generatorAfter count g ∧ ∀ r : Register, r.val < count →
        filled.1.get r = (randomValue (generatorAfter r g)).1
    · exact ⟨rfl, fun r hr => absurd hr (Nat.not_lt_zero r)⟩
    · rintro i ⟨registers, h⟩ ⟨rfl, hfilled⟩
      refine ⟨(generatorAfter_succ i g).symm, fun r hr => ?_⟩
      rw [Registers.get_put]
      by_cases hri : i = r
      · rw [if_pos hri, hri]
      · rw [if_neg hri]
        exact hfilled r (by have := Fin.val_ne_of_ne hri; omega)
  exact ⟨hfold.1, fun r => hfold.2 r r.isLt⟩

namespace Machine

/-- Every register gets a value from zero up to the 62nd power of two, in storage order. Its binary digits
are as many as the coins that failed for it, at most 62, and no other coin is flipped once 62 have failed.
Nothing but the registers and the generator changes. -/
theorem start_values_are_sized_by_flips (m : Machine) : ∃ generator : Nat → Rng,
    generator 0 = m.rng ∧
    m.randomize = { m with registers := m.randomize.registers, rng := generator 24 } ∧
    ∀ r : Register, (m.randomize.registers.get r).toInt < 2 ^ 62 ∧
      ∃ failed, Fills (generator r) failed (m.randomize.registers.get r) (generator (r + 1)) := by
  obtain ⟨hlast, hvalues⟩ := randomRegisters_eq m.rng
  refine ⟨(generatorAfter · m.rng), rfl, ?_, fun r => ?_⟩
  · dsimp only
    rw [← hlast]
    rfl
  · have hvalue : m.randomize.registers.get r = (randomValue (generatorAfter r m.rng)).1 := hvalues r
    have hfills := randomValue_fills (generatorAfter r m.rng)
    rw [← generatorAfter_succ, ← hvalue] at hfills
    exact ⟨hfills.lt, _, hfills⟩

end Machine

end Esolang.Ledger
