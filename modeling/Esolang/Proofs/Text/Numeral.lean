import Mathlib.Data.List.Basic
import Mathlib.Data.List.Induction
import Esolang.Text.Decimal

/-! What decimal numerals denote. The numeral of a number below ten is its digit behind any zeros, and the
shortest numeral of an integer has a minus sign exactly if the integer is below zero. -/

namespace Esolang.Decimal

variable {text : List Char} {c : Char} {n : Nat}

/-- The number that some digits denote. -/
def value (text : List Char) : Nat := text.foldl (fun n c => 10 * n + digitValue c) 0

theorem value_concat (text : List Char) (c : Char) :
    value (text ++ [c]) = 10 * value text + digitValue c :=
  List.foldl_concat ..

theorem digits?_eq_some_iff : digits? text = some n ↔
    text ≠ [] ∧ (∀ c ∈ text, c.isDigit = true) ∧ value text = n := by
  simp only [digits?, List.all_eq_true, Option.ite_none_right_eq_some, Option.some.injEq, and_assoc]
  rfl

theorem digitValue_lt (h : c.isDigit = true) : digitValue c < 10 := by
  obtain ⟨hlow, hhigh⟩ := Char.isDigit_iff_toNat.mp h
  have hnine : '9'.toNat = '0'.toNat + 9 := rfl
  rw [digitValue]
  omega

theorem digitValue_injective {d : Char} (hc : c.isDigit = true) (hd : d.isDigit = true)
    (h : digitValue c = digitValue d) : c = d := by
  have hclow := (Char.isDigit_iff_toNat.mp hc).1
  have hdlow := (Char.isDigit_iff_toNat.mp hd).1
  rw [digitValue, digitValue] at h
  exact Char.toNat_inj.mp (by omega)

theorem value_eq_zero_iff (h : ∀ c ∈ text, c.isDigit = true) :
    value text = 0 ↔ ∀ c ∈ text, c = '0' := by
  induction text using List.reverseRecOn with
  | nil => simp [value]
  | append_singleton text c ih =>
    obtain ⟨htext, hc⟩ := List.forall_mem_append.mp h
    have hlast : digitValue c = 0 ↔ c = '0' := by
      refine ⟨fun hz => digitValue_injective (hc c (by simp)) rfl hz, ?_⟩
      rintro rfl
      rfl
    rw [value_concat, List.forall_mem_append, List.forall_mem_singleton, ← ih htext, ← hlast]
    omega

/-- Only zeros stand in front of the digit of a number below ten. -/
theorem digits?_eq_some_digit_iff (h : c.isDigit = true) : digits? text = some (digitValue c) ↔
    ∃ zeros, (∀ d ∈ zeros, d = '0') ∧ text = zeros ++ [c] := by
  rw [digits?_eq_some_iff]
  constructor
  · rintro ⟨hne, hdigits, hvalue⟩
    obtain ⟨front, last, rfl⟩ : ∃ front last, text = front ++ [last] :=
      ⟨_, _, (List.dropLast_append_getLast hne).symm⟩
    obtain ⟨hfront, hlast⟩ := List.forall_mem_append.mp hdigits
    have hd := hlast last (by simp)
    have hlt := digitValue_lt h
    rw [value_concat] at hvalue
    have hzero : value front = 0 := by omega
    have hsame : digitValue last = digitValue c := by omega
    exact ⟨front, (value_eq_zero_iff hfront).mp hzero, by rw [digitValue_injective hd h hsame]⟩
  · rintro ⟨zeros, hzeros, rfl⟩
    have hdigits : ∀ d ∈ zeros, d.isDigit = true := by
      intro d hd
      rw [hzeros d hd]
      rfl
    refine ⟨by simp, ?_, ?_⟩
    · exact List.forall_mem_append.mpr ⟨hdigits, by simpa using h⟩
    · rw [value_concat, (value_eq_zero_iff hdigits).mpr hzeros, Nat.mul_zero, Nat.zero_add]

theorem natural?_eq_some_iff : natural? text = some n ↔
    ∃ sign digits, (sign = [] ∨ sign = ['+']) ∧ text = sign ++ digits ∧ digits? digits = some n := by
  have hplus : ∀ rest, digits? ('+' :: rest) ≠ some n := fun rest h =>
    absurd ((digits?_eq_some_iff.mp h).2.1 '+' List.mem_cons_self) (by decide)
  constructor
  · intro h
    unfold natural? at h
    split at h
    · exact ⟨['+'], _, .inr rfl, rfl, h⟩
    · exact ⟨[], _, .inl rfl, rfl, h⟩
  · rintro ⟨sign, digits, rfl | rfl, rfl, h⟩
    · unfold natural?
      split
      · exact absurd h (hplus _)
      · exact h
    · exact h

theorem minus_mem_ofInt_iff {z : Int} : '-' ∈ ofInt z ↔ z < 0 := by
  cases z with
  | ofNat n =>
    refine iff_of_false (fun hm => ?_) (by simp)
    exact absurd (Nat.isDigit_of_mem_toDigits (by decide) (by decide) hm) (by decide)
  | negSucc n => exact iff_of_true List.mem_cons_self (Int.negSucc_lt_zero n)

theorem exists_ofInt_of_neg {z : Int} (h : z < 0) : ∃ digits, ofInt z = '-' :: digits := by
  cases z with
  | ofNat n => exact absurd h (by simp)
  | negSucc n => exact ⟨_, rfl⟩

/-- The integer that some digits denote behind an optional sign. -/
inductive Denotes : List Char → Int → Prop where
  | plain {digits : List Char} (hne : digits ≠ []) (h : ∀ c ∈ digits, c.isDigit = true) :
    Denotes digits (value digits)
  | plus {digits : List Char} (hne : digits ≠ []) (h : ∀ c ∈ digits, c.isDigit = true) :
    Denotes ('+' :: digits) (value digits)
  | minus {digits : List Char} (hne : digits ≠ []) (h : ∀ c ∈ digits, c.isDigit = true) :
    Denotes ('-' :: digits) (-value digits)

theorem integer?_eq_some_iff {z : Int} : integer? text = some z ↔ Denotes text z := by
  constructor
  · intro h
    unfold integer? at h
    split at h
    · obtain ⟨n, hn, rfl⟩ := Option.map_eq_some_iff.mp h
      obtain ⟨hne, hdigits, rfl⟩ := digits?_eq_some_iff.mp hn
      exact .plus hne hdigits
    · next digits =>
      cases hn : digits? digits with
      | none => simp [hn] at h
      | some n =>
        obtain rfl : -(n : Int) = z := by simpa [hn] using h
        obtain ⟨hne, hdigits, rfl⟩ := digits?_eq_some_iff.mp hn
        exact .minus hne hdigits
    · obtain ⟨n, hn, rfl⟩ := Option.map_eq_some_iff.mp h
      obtain ⟨hne, hdigits, rfl⟩ := digits?_eq_some_iff.mp hn
      exact .plain hne hdigits
  · intro h
    cases h with
    | plain hne h => exact integer?_of_digits (digits?_eq_some_iff.mpr ⟨hne, h, rfl⟩)
    | plus hne h => simp [integer?, digits?_eq_some_iff.mpr ⟨hne, h, rfl⟩]
    | minus hne h => simp [integer?, digits?_eq_some_iff.mpr ⟨hne, h, rfl⟩]

theorem int64?_eq_some_iff {word : Int64} : int64? text = some word ↔ Denotes text word.toInt := by
  rw [← integer?_eq_some_iff, int64?]
  constructor
  · intro h
    cases hz : integer? text with
    | none => simp [hz] at h
    | some z =>
      simp only [hz, Option.ite_none_right_eq_some, Option.some.injEq] at h
      obtain ⟨⟨hlow, hhigh⟩, rfl⟩ := h
      rw [Int64.toInt_ofInt_of_le hlow (Int.lt_add_one_of_le hhigh)]
  · intro h
    rw [h]
    dsimp only
    rw [if_pos ⟨word.minValue_le_toInt, word.toInt_le⟩, Int64.ofInt_toInt]

end Esolang.Decimal
