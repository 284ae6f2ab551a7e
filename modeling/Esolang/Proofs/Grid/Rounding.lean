import Mathlib.Algebra.Order.Field.Basic
import Mathlib.Data.Rat.Floor
import Mathlib.Tactic.Linarith
import Mathlib.Tactic.Ring
import Esolang.Proofs.Grid.Division

/-! Quotients and remainders on the Befunge machine. The machine rounds quotients down, although it
gets them from a division that rounds toward zero: it lowers that quotient by one where something is
left over and the signs of the operands differ. -/

namespace Esolang.Grid

section Rounding

variable {a b q : Int}

/-- What may be left over by a divisor: less than the divisor, and not of the other sign. -/
def Remains (a r : Int) : Prop := 0 ≤ r ∧ r < a ∨ a < r ∧ r ≤ 0

/-- The quotient rounded toward zero is above the exact one. -/
def Exceeds (b a : Int) : Prop := b.tmod a ≠ 0 ∧ (b < 0) ≠ (a < 0)

instance (b a : Int) : Decidable (Exceeds b a) := inferInstanceAs (Decidable (_ ∧ _))

def lowered (b a : Int) : Int := if Exceeds b a then b.tdiv a - 1 else b.tdiv a

theorem floor_eq_of_remains (h : Remains a (b - a * q)) : ⌊(b : ℚ) / a⌋ = q := by
  rw [Int.floor_eq_iff]
  obtain ⟨hlow, hhigh⟩ | ⟨hlow, hhigh⟩ := h
  · have ha : (0 : ℚ) < a := by exact_mod_cast (by omega : 0 < a)
    rw [le_div_iff₀ ha, div_lt_iff₀ ha]
    constructor
    · exact_mod_cast (by linarith : q * a ≤ b)
    · exact_mod_cast (by linarith : b < (q + 1) * a)
  · have ha : (a : ℚ) < 0 := by exact_mod_cast (by omega : a < 0)
    rw [le_div_iff_of_neg ha, div_lt_iff_of_neg ha]
    constructor
    · exact_mod_cast (by linarith : b ≤ q * a)
    · exact_mod_cast (by linarith : (q + 1) * a < b)

/-- What is left over by the quotient rounded toward zero has the sign of the dividend. -/
theorem tmod_bounds (ha : a ≠ 0) (b : Int) :
    (b.tmod a).natAbs < a.natAbs ∧ (0 ≤ b → 0 ≤ b.tmod a) ∧ (b < 0 → b.tmod a ≤ 0) := by
  refine ⟨?_, Int.tmod_nonneg a, fun hb => ?_⟩
  · rw [Int.natAbs_tmod]
    exact Nat.mod_lt _ (by omega)
  · have hneg := Int.tmod_nonneg a (by omega : 0 ≤ -b)
    rw [Int.neg_tmod] at hneg
    omega

theorem remains_lowered (ha : a ≠ 0) (b : Int) : Remains a (b - a * lowered b a) := by
  have hmod := Int.tmod_def b a
  obtain ⟨habs, hnonneg, hneg⟩ := tmod_bounds ha b
  by_cases h : Exceeds b a
  · have hrest : b - a * lowered b a = b.tmod a + a := by
      rw [lowered, if_pos h, hmod]
      ring
    obtain ⟨hne, hsigns⟩ := h
    rw [ne_eq, eq_iff_iff] at hsigns
    rw [hrest, Remains]
    omega
  · rw [lowered, if_neg h, ← hmod, Remains]
    rw [Exceeds, ne_eq, ne_eq, eq_iff_iff] at h
    omega

theorem floor_eq_lowered (ha : a ≠ 0) (b : Int) : ⌊(b : ℚ) / a⌋ = lowered b a :=
  floor_eq_of_remains (remains_lowered ha b)

theorem remains_floor (ha : a ≠ 0) (b : Int) : Remains a (b - a * ⌊(b : ℚ) / a⌋) := by
  rw [floor_eq_lowered ha]
  exact remains_lowered ha b

theorem Remains.abs_lt {r : Int} (h : Remains a r) : |r| < |a| := by
  unfold Remains at h
  rw [Int.abs_eq_natAbs, Int.abs_eq_natAbs]
  omega

theorem Remains.sign_eq {r : Int} (h : Remains a r) : r = 0 ∨ r.sign = a.sign := by
  obtain ⟨hlow, hhigh⟩ | ⟨hlow, hhigh⟩ := h
  · rcases hlow.eq_or_lt with hzero | hpos
    · exact .inl hzero.symm
    · exact .inr (by rw [Int.sign_eq_one_of_pos hpos, Int.sign_eq_one_of_pos (hpos.trans hhigh)])
  · rcases hhigh.eq_or_lt with hzero | hneg
    · exact .inl hzero
    · exact .inr (by
        rw [Int.sign_eq_neg_one_of_neg hneg, Int.sign_eq_neg_one_of_neg (hlow.trans hneg)])

/-- The only quotient of words that is not a word is that of the lowest word by minus one. -/
theorem quotient_bounds (hb : -2 ^ 63 ≤ b ∧ b < 2 ^ 63) (h : Remains a (b - a * q)) :
    -2 ^ 63 ≤ q ∧ q < 2 ^ 63 ↔ ¬ (b = -2 ^ 63 ∧ a = -1) := by
  constructor
  · rintro hq ⟨rfl, rfl⟩
    unfold Remains at h
    omega
  · intro hne
    obtain ⟨hlow, hhigh⟩ | ⟨hlow, hhigh⟩ := h
    · have ha : 1 ≤ a := by omega
      constructor
      · by_contra hq
        have hmul : a * (q + 1) ≤ 1 * (q + 1) := mul_le_mul_of_nonpos_right ha (by omega)
        linarith
      · by_contra hq
        have hmul : 1 * q ≤ a * q := mul_le_mul_of_nonneg_right ha (by omega)
        linarith
    · have ha : a ≤ -1 := by omega
      constructor
      · by_contra hq
        have hmul : -1 * (q + 1) ≤ a * (q + 1) := mul_le_mul_of_nonpos_right ha (by omega)
        linarith
      · by_contra hq
        have hne' : a ≠ -1 := by
          rintro rfl
          omega
        have hmul : a * q ≤ -2 * q := mul_le_mul_of_nonneg_right (by omega) (by omega)
        linarith

end Rounding

section Words

variable {a b : Int64}

theorem toInt_ne_zero (ha : a ≠ 0) : a.toInt ≠ 0 := fun h => ha (Int64.toInt_inj.mp h)

/-- The exact quotient, rounded down. -/
def quotient (b a : Int64) : Int := ⌊(b.toInt : ℚ) / a.toInt⌋

theorem remains_quotient (ha : a ≠ 0) (b : Int64) :
    Remains a.toInt (b.toInt - a.toInt * quotient b a) :=
  remains_floor (toInt_ne_zero ha) b.toInt

theorem quotient_fits_iff (ha : a ≠ 0) (b : Int64) :
    -2 ^ 63 ≤ quotient b a ∧ quotient b a < 2 ^ 63 ↔ ¬ (b.toInt = -2 ^ 63 ∧ a.toInt = -1) :=
  quotient_bounds ⟨b.le_toInt, b.toInt_lt⟩ (remains_quotient ha b)

theorem div_eq_ofInt (b a : Int64) : b / a = .ofInt (b.toInt.tdiv a.toInt) := by
  rw [Int64.ofInt_tdiv b.minValue_le_toInt b.toInt_le a.minValue_le_toInt a.toInt_le,
    Int64.ofInt_toInt, Int64.ofInt_toInt]

theorem exceeds_iff (b a : Int64) :
    Exceeds b.toInt a.toInt ↔ b % a ≠ 0 ∧ (b < 0) ≠ (a < 0) := by
  rw [Exceeds, ← Int64.toInt_mod, Int64.lt_iff_toInt_lt, Int64.lt_iff_toInt_lt, ne_eq,
    ne_eq (b % a), ← Int64.toInt_inj]
  rfl

theorem floorDiv_eq_ofInt (ha : a ≠ 0) (b : Int64) : floorDiv b a = .ofInt (quotient b a) := by
  rw [quotient, floor_eq_lowered (toInt_ne_zero ha), lowered, floorDiv, div_eq_ofInt]
  by_cases h : Exceeds b.toInt a.toInt
  · rw [if_pos h, if_pos ((exceeds_iff b a).mp h), Int64.ofInt_sub]
    rfl
  · rw [if_neg h, if_neg (mt (exceeds_iff b a).mpr h)]

theorem toInt_ofInt_quotient_iff (ha : a ≠ 0) (b : Int64) :
    (Int64.ofInt (quotient b a)).toInt = quotient b a ↔
      ¬ (b.toInt = -2 ^ 63 ∧ a.toInt = -1) := by
  rw [← quotient_fits_iff ha b]
  constructor
  · intro h
    rw [← h]
    exact ⟨Int64.le_toInt _, Int64.toInt_lt _⟩
  · rintro ⟨hlow, hhigh⟩
    exact Int64.toInt_ofInt_of_le hlow hhigh

theorem toInt_floorMod (ha : a ≠ 0) (b : Int64) :
    (floorMod b a).toInt = b.toInt - a.toInt * quotient b a := by
  have hword : floorMod b a = .ofInt (b.toInt - a.toInt * quotient b a) := by
    rw [floorMod, floorDiv_eq_ofInt ha, Int64.ofInt_sub, Int64.ofInt_mul, Int64.ofInt_toInt,
      Int64.ofInt_toInt, Int64.mul_comm]
  have hrest := remains_quotient ha b
  have hlow := a.le_toInt
  have hhigh := a.toInt_lt
  rw [hword]
  unfold Remains at hrest
  exact Int64.toInt_ofInt_of_le (by omega) (by omega)

theorem toInt_lowered (ha : a ≠ 0) (h : b % a ≠ 0 ∧ (b < 0) ≠ (a < 0)) :
    (b / a - 1).toInt = (b / a).toInt - 1 := by
  have hexceeds := (exceeds_iff b a).mpr h
  have hone : a.toInt ≠ -1 := by
    intro hone
    have hmod := hexceeds.1
    rw [hone, Int.tmod_neg, Int.tmod_one] at hmod
    exact hmod rfl
  have hexact : (b / a).toInt = b.toInt.tdiv a.toInt :=
    Int64.toInt_div_of_ne_right b a fun h => hone (congrArg Int64.toInt h)
  obtain ⟨hlow, hhigh⟩ := (quotient_fits_iff ha b).mpr fun h => hone h.2
  rw [quotient, floor_eq_lowered (toInt_ne_zero ha), lowered, if_pos hexceeds] at hlow hhigh
  have hword : b / a - 1 = .ofInt (b.toInt.tdiv a.toInt - 1) := by
    rw [Int64.ofInt_sub, div_eq_ofInt]
    rfl
  rw [hexact, hword]
  exact Int64.toInt_ofInt_of_le hlow hhigh

end Words

namespace Machine

variable {m : Machine}

theorem step_on_quotient {f : Int64 → Int64 → Int64} (hs : m.stringMode = false)
    (hf : division? m.here = some f) (ho : m.HasOperands) (ha : m.upper ≠ 0) :
    step.on m = (.ok .proceed, m.divided (f m.lower m.upper)) := by
  rw [step_on_division hs hf, divide_on m.here f ho, if_neg ha]
  rfl

/-- A division by another number than zero pushes the quotient rounded down, or the remainder that
it leaves. Only the quotient of the lowest word by minus one is too large for a word, and lowering a
quotient never leads out of the words. -/
theorem division_rounds_down (m : Machine) (hs : m.stringMode = false) (ho : m.HasOperands)
    (ha : m.upper ≠ 0) :
    (m.here = '/' →
      step.on m = (.ok .proceed, m.divided (.ofInt (quotient m.lower m.upper)))) ∧
    ((Int64.ofInt (quotient m.lower m.upper)).toInt = quotient m.lower m.upper ↔
      ¬ (m.lower.toInt = -2 ^ 63 ∧ m.upper.toInt = -1)) ∧
    (∃ remainder : Int64,
      (m.here = '%' → step.on m = (.ok .proceed, m.divided remainder)) ∧
      remainder.toInt = m.lower.toInt - m.upper.toInt * quotient m.lower m.upper ∧
      |remainder.toInt| < |m.upper.toInt| ∧
      (remainder.toInt = 0 ∨ remainder.toInt.sign = m.upper.toInt.sign)) ∧
    (m.lower % m.upper ≠ 0 ∧ (m.lower < 0) ≠ (m.upper < 0) →
      (m.lower / m.upper - 1).toInt = (m.lower / m.upper).toInt - 1) := by
  have hrest := remains_quotient ha m.lower
  have hmod := toInt_floorMod ha m.lower
  refine ⟨fun hd => ?_, toInt_ofInt_quotient_iff ha m.lower,
    ⟨floorMod m.lower m.upper, fun hd => ?_, hmod, ?_, ?_⟩, toInt_lowered ha⟩
  · rw [← floorDiv_eq_ofInt ha]
    exact step_on_quotient hs (by rw [hd]; rfl) ho ha
  · exact step_on_quotient hs (by rw [hd]; rfl) ho ha
  · rw [hmod]
    exact hrest.abs_lt
  · rw [hmod]
    exact hrest.sign_eq

def dividing (sign : String) (b a : Int64) : Machine := { running sign 0 with stack := [a, b] }

theorem lower_dividing (sign : String) (b a : Int64) : (dividing sign b a).lower = b := rfl

theorem upper_dividing (sign : String) (b a : Int64) : (dividing sign b a).upper = a := rfl

/-- The lowest word by minus one, and what minus seven leaves over by two. -/
theorem division_rounds_down_below_zero :
    (step.on (dividing "/" Int64.minValue (-1)) =
        (.ok .proceed, (dividing "/" Int64.minValue (-1)).divided Int64.minValue) ∧
      quotient Int64.minValue (-1) = 2 ^ 63) ∧
    step.on (dividing "%" (-7) 2) = (.ok .proceed, (dividing "%" (-7) 2).divided 1) := by
  have hlowest : quotient Int64.minValue (-1) = 2 ^ 63 :=
    floor_eq_of_remains (.inr ⟨by decide, by decide⟩)
  have hseven : quotient (-7) 2 = -4 := floor_eq_of_remains (.inl ⟨by decide, by decide⟩)
  obtain ⟨hdiv, -⟩ := division_rounds_down (dividing "/" Int64.minValue (-1)) rfl (.inr le_rfl)
    (by decide)
  obtain ⟨-, -, ⟨remainder, hmod, hexact, -⟩, -⟩ :=
    division_rounds_down (dividing "%" (-7) 2) rfl (.inr le_rfl) (by decide)
  rw [lower_dividing, upper_dividing, hlowest] at hdiv
  rw [lower_dividing, upper_dividing, hseven] at hexact
  obtain rfl : remainder = 1 := Int64.toInt_inj.mp hexact
  exact ⟨⟨hdiv rfl, hlowest⟩, hmod rfl⟩

end Machine

end Esolang.Grid
