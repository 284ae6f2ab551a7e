import Mathlib.Data.Int.ModEq
import Esolang.Ledger.Machine

/-! Transactions of a ledger as a whole. Whether a transaction commits, and what it leaves, is told by
sums of operands in the integers, taken modulo the size of a word. -/

namespace Esolang.Ledger

/-- What the commands with some operator add up to on a register. -/
def moved (operator : Operator) (r : Register) (commands : List Command) : Int :=
  ((commands.filter fun c => c.operator = operator ∧ c.register = r).map
    fun c => c.operand.toInt).sum

def balance (registers : Registers) (commands : List Command) (r : Register) : Int :=
  (registers.get r).toInt + moved .add r commands - moved .sub r commands

/-- Each expectation of a transaction is met by what the commands in front of it have moved. -/
def ExpectationsMet (registers : Registers) (t : Transaction) : Prop :=
  ∀ earlier c later, t = earlier ++ c :: later → c.operator = .expect →
    balance registers earlier c.register ≡ c.operand.toInt [ZMOD 2 ^ 64]

theorem toInt_add_modEq (a b : Int64) : (a + b).toInt ≡ a.toInt + b.toInt [ZMOD 2 ^ 64] := by
  rw [Int64.toInt_add]
  exact Int.bmod_emod

theorem toInt_sub_modEq (a b : Int64) : (a - b).toInt ≡ a.toInt - b.toInt [ZMOD 2 ^ 64] := by
  rw [Int64.toInt_sub]
  exact Int.bmod_emod

theorem toInt_modEq_iff {a b : Int64} : a.toInt ≡ b.toInt [ZMOD 2 ^ 64] ↔ a = b := by
  constructor
  · intro h
    have hm : a.toInt % 2 ^ 64 = b.toInt % 2 ^ 64 := h
    have ha := a.le_toInt
    have ha' := a.toInt_lt
    have hb := b.le_toInt
    have hb' := b.toInt_lt
    apply Int64.toInt_inj.mp
    omega
  · rintro rfl
    rfl

theorem moved_cons (operator : Operator) (r : Register) (c : Command) (commands : List Command) :
    moved operator r (c :: commands) = moved operator r [c] + moved operator r commands := by
  by_cases h : c.operator = operator ∧ c.register = r
  · simp [moved, h]
  · simp [moved, h]

theorem moved_nil (operator : Operator) (r : Register) : moved operator r [] = 0 := rfl

theorem effect?_eq_none_iff {registers : Registers} {c : Command} :
    c.effect? registers = none ↔ c.operator = .expect ∧ registers.get c.register ≠ c.operand := by
  unfold Command.effect?
  cases c.operator <;> simp

theorem get_of_effect? {registers after : Registers} {c : Command}
    (h : c.effect? registers = some after) (r : Register) :
    (after.get r).toInt ≡ balance registers [c] r [ZMOD 2 ^ 64] := by
  obtain ⟨register, operator, operand⟩ := c
  cases operator with
  | add =>
    obtain rfl := Option.some.inj h
    rw [Registers.get_put]
    by_cases hr : register = r
    · subst hr
      simpa [balance, moved] using toInt_add_modEq (registers.get register) operand
    · simp [balance, moved, hr]
  | sub =>
    obtain rfl := Option.some.inj h
    rw [Registers.get_put]
    by_cases hr : register = r
    · subst hr
      simpa [balance, moved] using toInt_sub_modEq (registers.get register) operand
    · simp [balance, moved, hr]
  | expect =>
    obtain ⟨-, rfl⟩ : registers.get register = operand ∧ registers = after := by
      simpa [Command.effect?] using h
    simp [balance, moved]

theorem balance_of_effect? {registers after : Registers} {c : Command}
    (h : c.effect? registers = some after) (commands : List Command) (r : Register) :
    balance after commands r ≡ balance registers (c :: commands) r [ZMOD 2 ^ 64] := by
  have hsum : balance registers (c :: commands) r =
      balance registers [c] r + (moved .add r commands - moved .sub r commands) := by
    rw [balance, balance, moved_cons .add, moved_cons .sub]
    omega
  have hafter : balance after commands r =
      (after.get r).toInt + (moved .add r commands - moved .sub r commands) := by
    rw [balance]
    omega
  rw [hsum, hafter]
  exact (get_of_effect? h r).add_right _

theorem expectationsMet_cons_iff {registers after : Registers} {c : Command} {t : Transaction}
    (h : c.effect? registers = some after) :
    ExpectationsMet registers (c :: t) ↔ ExpectationsMet after t := by
  constructor
  · intro hm earlier d later ht hd
    have hh := hm (c :: earlier) d later (by rw [ht]; rfl) hd
    exact (balance_of_effect? h earlier d.register).trans hh
  · intro hm earlier d later ht hd
    cases earlier with
    | nil =>
      obtain ⟨rfl, rfl⟩ := List.cons.inj ht
      have hmet : registers.get c.register = c.operand := by
        by_contra hne
        rw [effect?_eq_none_iff.mpr ⟨hd, hne⟩] at h
        cases h
      simp [balance, moved_nil, hmet]
    | cons e earlier =>
      obtain ⟨rfl, rfl⟩ := List.cons.inj ht
      have hh := hm earlier d later rfl hd
      exact (balance_of_effect? h earlier d.register).symm.trans hh

theorem not_expectationsMet_cons {registers : Registers} {c : Command} (t : Transaction)
    (h : c.effect? registers = none) : ¬ ExpectationsMet registers (c :: t) := by
  obtain ⟨hc, hne⟩ := effect?_eq_none_iff.mp h
  intro hm
  have hh := hm [] c t rfl hc
  apply hne
  apply toInt_modEq_iff.mp
  simpa [balance, moved_nil] using hh

/-- By induction on the commands: what they leave has the balance of those carried out, and a command
that undoes the transaction is an expectation that is not met. -/
theorem foldlM_effect? (t : Transaction) (registers : Registers) :
    (∃ after, t.foldlM Command.effect? registers = some after ∧ ExpectationsMet registers t ∧
      ∀ r, (after.get r).toInt ≡ balance registers t r [ZMOD 2 ^ 64]) ∨
    t.foldlM Command.effect? registers = none ∧ ¬ ExpectationsMet registers t := by
  induction t generalizing registers with
  | nil =>
    refine .inl ⟨registers, rfl, ?_, fun r => ?_⟩
    · intro earlier c later ht
      simp at ht
    · simp [balance, moved_nil]
  | cons c t ih =>
    rw [List.foldlM_cons]
    cases he : c.effect? registers with
    | none => exact .inr ⟨rfl, not_expectationsMet_cons t he⟩
    | some next =>
      rw [expectationsMet_cons_iff he]
      obtain ⟨after, hafter, hm, hget⟩ | hundone := ih next
      · refine .inl ⟨after, hafter, hm, fun r => ?_⟩
        exact (hget r).trans (balance_of_effect? he t r)
      · exact .inr hundone

namespace Machine

theorem step_on_closed {m : Machine} {t : Transaction} {input : Option Source} {output : Sink}
    (ht : m.transactions[m.counter]? = some t) (hc : m.channels = .closed input output) :
    step.on m =
      (.ok .proceed,
        { m with
          registers := t.effect m.registers
          counter := (m.counter + 1) % m.transactions.size }) := by
  simp [step, ht, emit, receive, hc]

/-- While no flows run, a step carries out a transaction as a whole or not at all. It commits exactly
if all its expectations are met, and goes on to the next transaction in either case. -/
theorem transactions_are_atomic (m : Machine) (t : Transaction) (input : Option Source)
    (output : Sink) (ht : m.transactions[m.counter]? = some t)
    (hc : m.channels = .closed input output) :
    ∃ registers,
      step.on m =
        (.ok .proceed,
          { m with registers, counter := (m.counter + 1) % m.transactions.size }) ∧
      ((∃ after, t.foldlM Command.effect? m.registers = some after) ↔
        ExpectationsMet m.registers t) ∧
      (ExpectationsMet m.registers t →
        ∀ r, (registers.get r).toInt ≡ balance m.registers t r [ZMOD 2 ^ 64]) ∧
      (¬ ExpectationsMet m.registers t → registers = m.registers) := by
  refine ⟨t.effect m.registers, step_on_closed ht hc, ?_⟩
  obtain ⟨after, hafter, hm, hget⟩ | ⟨hnone, hm⟩ := foldlM_effect? t m.registers
  · have heffect : t.effect m.registers = after := by simp [Transaction.effect, hafter]
    rw [heffect]
    exact ⟨iff_of_true ⟨after, hafter⟩ hm, fun _ => hget, fun hn => absurd hm hn⟩
  · have heffect : t.effect m.registers = m.registers := by simp [Transaction.effect, hnone]
    rw [heffect]
    exact ⟨iff_of_false (by simp [hnone]) hm, fun hn => absurd hn hm, fun _ => rfl⟩

def wrapping : Transaction := [⟨.output, .add, 1⟩, ⟨.output, .expect, .minValue⟩, ⟨.input, .sub, 3⟩]

def full : Machine :=
  { transactions := #[wrapping], registers := Registers.put .output .maxValue (Vector.replicate 24 0)
    inputChance := .certain, outputChance := .certain, rng := .ofSeed 0
    channels := .closed none {} }

theorem wrapping_transaction_commits :
    full.transactions[full.counter]? = some wrapping ∧ full.channels = .closed none {} ∧
      ∃ registers, step.on full = (.ok .proceed, { full with registers }) ∧
        ∀ r, (registers.get r).toInt ≡ balance full.registers wrapping r [ZMOD 2 ^ 64] := by
  obtain ⟨registers, hstep, hcommits, hget, -⟩ :=
    transactions_are_atomic full wrapping none {} rfl rfl
  have hmet : ExpectationsMet full.registers wrapping := hcommits.mp ⟨_, rfl⟩
  exact ⟨rfl, rfl, registers, hstep, hget hmet⟩

end Machine

end Esolang.Ledger
