import Esolang.Error

/-! Cells of a tape: natural numbers below a power of two that wrap around, or integers that never
wrap but have to fit in a carrier of 128 bits. -/

namespace Esolang.Tape

inductive CellWidth where
  | bits (count : Nat) (pos : 0 < count) (le : count ≤ 64)
  | unbounded
  deriving DecidableEq, Repr

namespace CellWidth

/-- The width for a setting, where no number of bits stands for unbounded cells. -/
def ofSetting : Option Nat → Except ConfigError CellWidth
  | none => .ok .unbounded
  | some count =>
    if h : 0 < count ∧ count ≤ 64 then .ok (.bits count h.1 h.2) else .error (.cellBits count)

/-- The value that a cell takes for a number that fits in the carrier. -/
def wrap : CellWidth → Int → Int
  | .bits count _ _, value => value % (1 <<< count : Nat)
  | .unbounded, value => value

/-- The first number that does not fit in the carrier; its negation still does. -/
def carrierBound : Int := 0x80000000000000000000000000000000

/-- The value of a cell after adding to it, if it stays in the carrier. -/
def add (width : CellWidth) (value delta : Int) : Option Int :=
  let sum := width.wrap (value + delta)
  if -carrierBound ≤ sum ∧ sum < carrierBound then some sum else none

theorem wrap_bits_lt {count : Nat} (pos : 0 < count) (le : count ≤ 64) (value : Int) :
    0 ≤ (bits count pos le).wrap value ∧ (bits count pos le).wrap value < (1 <<< count : Nat) := by
  have h : (0 : Int) < (1 <<< count : Nat) := by
    rw [Nat.one_shiftLeft]
    exact Int.natCast_pos.mpr (Nat.two_pow_pos count)
  exact ⟨Int.emod_nonneg _ (Int.ne_of_gt h), Int.emod_lt_of_pos _ h⟩

end CellWidth

end Esolang.Tape
