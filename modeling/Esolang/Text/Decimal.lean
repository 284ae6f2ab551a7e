/-! Whole numbers in decimal notation: ASCII digits after an optional sign, without separators.
Reading checks the range of the machine word that the number has to fit in. -/

namespace Esolang.Decimal

def digitValue (c : Char) : Nat := c.toNat - '0'.toNat

def digits? (text : List Char) : Option Nat :=
  if text ≠ [] ∧ text.all Char.isDigit then
    some (text.foldl (fun n c => 10 * n + digitValue c) 0)
  else
    none

/-- Digits after an optional plus sign. -/
def natural? : List Char → Option Nat
  | '+' :: rest => digits? rest
  | text => digits? text

/-- Digits after an optional sign. -/
def integer? : List Char → Option Int
  | '+' :: rest => (digits? rest).map Int.ofNat
  | '-' :: rest => (digits? rest).map fun n => -(n : Int)
  | text => (digits? text).map Int.ofNat

def naturalBelow? (bound : Nat) (text : List Char) : Option Nat :=
  (natural? text).filter (· < bound)

/-- An integer that fits in 64 bits with sign. -/
def int64? (text : List Char) : Option Int64 :=
  match integer? text with
  | some value =>
    if Int64.minValue.toInt ≤ value ∧ value ≤ Int64.maxValue.toInt then some (.ofInt value)
    else none
  | none => none

def ofNat (n : Nat) : List Char := Nat.toDigits 10 n

/-- The shortest notation of an integer, with a minus sign below zero. -/
def ofInt : Int → List Char
  | .ofNat n => ofNat n
  | .negSucc n => '-' :: ofNat (n + 1)

theorem digits?_ofNat (n : Nat) : digits? (ofNat n) = some n := by
  have hdigits : (ofNat n).all Char.isDigit = true := by
    rw [List.all_eq_true]
    intro c hc
    exact Nat.isDigit_of_mem_toDigits (by decide) (by decide) hc
  rw [digits?, if_pos ⟨Nat.toDigits_ne_nil, hdigits⟩]
  exact congrArg some (Nat.ofDigitChars_toDigits (by decide) (by decide))

theorem integer?_of_digits {text : List Char} {n : Nat} (h : digits? text = some n) :
    integer? text = some (n : Int) := by
  have hsign : ∀ c rest, text = c :: rest → c.isDigit = true := by
    rintro c rest rfl
    by_cases hd : c.isDigit = true
    · exact hd
    · simp [digits?, hd] at h
  unfold integer?
  split
  · exact absurd (hsign _ _ rfl) (by decide)
  · exact absurd (hsign _ _ rfl) (by decide)
  · rw [h]
    rfl

theorem integer?_ofInt (z : Int) : integer? (ofInt z) = some z := by
  cases z with
  | ofNat n => exact integer?_of_digits (digits?_ofNat n)
  | negSucc n =>
    show (digits? (ofNat (n + 1))).map (fun n => -(n : Int)) = some (Int.negSucc n)
    rw [digits?_ofNat]
    rfl

theorem int64?_ofInt (value : Int64) : int64? (ofInt value.toInt) = some value := by
  rw [int64?, integer?_ofInt]
  simp only
  rw [if_pos ⟨value.minValue_le_toInt, value.toInt_le⟩, Int64.ofInt_toInt]

theorem mem_ofInt {z : Int} {c : Char} (h : c ∈ ofInt z) : c = '-' ∨ c.isDigit = true := by
  have hn : ∀ n, c ∈ ofNat n → c.isDigit = true := fun n hc =>
    Nat.isDigit_of_mem_toDigits (by decide) (by decide) hc
  cases z with
  | ofNat n => exact .inr (hn n h)
  | negSucc n =>
    rcases List.mem_cons.mp h with rfl | h
    · exact .inl rfl
    · exact .inr (hn _ h)

end Esolang.Decimal
