import Mathlib.Data.Int.CardIntervalMod
import Esolang.Proofs.Ledger.Requests

/-! The turns that the transactions of a ledger take. Whatever has been called, the counter stands at a
transaction, if there is one, so that no step halts; and each step that succeeds moves it on by one,
around the program. -/

namespace Esolang.Ledger

/-- In so many rounds each place of a circle comes up as often, wherever they start. -/
theorem count_rounds {size start place : Nat} (h : start < size) (hp : place < size) (rounds : Nat) :
    ((List.range (rounds * size)).map fun i => (start + i) % size).count place = rounds := by
  have hsize : 0 < size := by omega
  have hplace : ∀ i, (start + i) % size = place ↔ i ≡ place + (size - start) [MOD size] := by
    intro i
    have hshift : place + (size - start) + start = place + size := by omega
    calc (start + i) % size = place
        ↔ i + start ≡ place + size [MOD size] := by
          rw [Nat.ModEq, Nat.add_mod_right, Nat.mod_eq_of_lt hp, Nat.add_comm start]
      _ ↔ i ≡ place + (size - start) [MOD size] := by
          rw [← hshift]
          exact ⟨Nat.ModEq.add_right_cancel' start, Nat.ModEq.add_right start⟩
  have hcount := Nat.count_modEq_card (rounds * size) hsize (place + (size - start))
  rw [Nat.mul_mod_left, if_neg (Nat.not_lt_zero _), Nat.mul_div_cancel _ hsize, Nat.count] at hcount
  rw [List.count, List.countP_map]
  refine (List.countP_congr fun i _ => ?_).trans hcount
  simpa using hplace i

namespace Machine

variable {m u : Machine}

/-- The machine with one transaction in place of its program. -/
def alone (t : Transaction) (m : Machine) : Machine := { m with transactions := #[t], counter := 0 }

theorem emit_alone (t : Transaction) (m : Machine) :
    emit.on (m.alone t) = ((emit.on m).1, (emit.on m).2.alone t) := by
  rw [emit_on, emit_on]
  cases hc : m.channels with
  | closed input output => simp [alone, hc]
  | flowing waiting output =>
    by_cases hv : m.registers.get Register.output = 0
    · simp [alone, hc, hv]
    · cases hf : (m.outputChance.draw m.rng).1 with
      | false => simp [alone, hc, hv, hf]
      | true =>
        cases hs : scalar? ((m.registers.get Register.output).toInt - 1) with
        | none => simp [alone, hc, hv, hf, hs]
        | some c => simp [alone, hc, hv, hf, hs, setRegister]

theorem receive_alone (t : Transaction) (m : Machine) :
    (m.alone t).receive = m.receive.alone t := by
  rw [receive, receive]
  cases hc : m.channels with
  | closed input output => simp [alone, hc]
  | flowing waiting output =>
    by_cases hv : m.registers.get Register.input = 0
    · rcases hd : m.inputChance.draw m.rng with ⟨_ | _, rng⟩
      · simp [alone, hc, hv, hd]
      · cases waiting with
        | nil => simp [alone, hc, hv, hd]
        | cons c waiting => simp [alone, hc, hv, hd, setRegister]
    · simp [alone, hc, hv]

theorem step_alone {t : Transaction} (ht : m.transactions[m.counter]? = some t) :
    step.on (m.alone t) = ((step.on m).1, (step.on m).2.alone t) := by
  have ha : (m.alone t).transactions[(m.alone t).counter]? = some t := rfl
  have hc : (m.alone t).carryOut t = (m.carryOut t).alone t := rfl
  rw [step_on ha, step_on ht, hc, emit_alone]
  rcases emit.on (m.carryOut t) with ⟨e | _, u⟩
  · rfl
  · dsimp only
    rw [receive_alone]
    simp [alone]

theorem emit_keeps {r : Register} (hr : r ≠ Register.output) (m : Machine) :
    (emit.on m).2.registers.get r = m.registers.get r := by
  obtain ⟨rng, h | ⟨c, -, h⟩⟩ := emit_cases m
  · rw [h]
  · simp [h, setRegister, Registers.get_put, hr.symm]

theorem step_registers {t : Transaction} {r : Register} (ht : m.transactions[m.counter]? = some t)
    (hi : r ≠ Register.input) (ho : r ≠ Register.output) :
    (step.on m).2.registers.get r = (t.effect m.registers).get r := by
  have hemit : (emit.on (m.carryOut t)).2.registers.get r = (t.effect m.registers).get r :=
    emit_keeps ho (m.carryOut t)
  rw [step_on ht]
  rcases he : emit.on (m.carryOut t) with ⟨e | _, u⟩
  · rwa [he] at hemit
  · rw [he] at hemit
    exact (u.receive_takes.others r (.inl hi)).trans hemit

/-- A step carries out a transaction: the registers that have no port hold its effect, and a machine that
has no other transaction does just the same. -/
structure CarriesOut (t : Transaction) (count : Nat) (m : Machine) : Prop where
  registers : ∀ r, r ≠ Register.input → r ≠ Register.output →
    ((stepWith count).on m).2.registers.get r = (t.effect m.registers).get r
  alone : (stepWith count).on (m.alone t) =
    (((stepWith count).on m).1, ((stepWith count).on m).2.alone t)

theorem carriesOut_of_counter {t : Transaction} (ht : m.transactions[m.counter]? = some t)
    (count : Nat) : m.CarriesOut t count := by
  have hs := step_alone (m := m.within count) ht
  have hw : (m.alone t).within count = (m.within count).alone t := rfl
  refine ⟨fun r hi ho => step_registers (m := m.within count) ht hi ho, ?_⟩
  rw [stepWith_on, stepWith_on, hw, hs]
  rfl

/-- The counter stands at a transaction, if there is one. -/
def InTurn (m : Machine) : Prop := m.transactions ≠ #[] → m.counter < m.transactions.size

theorem InTurn.load (h : m.InTurn) (source : String) : ((load source).on m).2.InTurn := by
  rw [load_on]
  split
  · exact h
  · exact fun hne => Array.size_pos_iff.mpr hne

theorem InTurn.openChannels (h : m.InTurn) : m.openChannels.InTurn := by
  rw [Machine.openChannels]
  split
  · exact h
  · intro hne
    have hlt := Rng.below_lt (Array.size_pos_iff.mpr hne) m.rng
    rcases hb : m.rng.below m.transactions.size with ⟨counter, rng⟩
    rwa [hb] at hlt

theorem InTurn.prepare (h : m.InTurn) : (prepare.on m).2.InTurn := by
  have hdrawn : m.closeChannels.randomize.InTurn := by
    rw [randomize]
    generalize randomRegisters m.closeChannels.rng = drawn
    exact h
  rw [prepare_leaves]
  exact hdrawn.openChannels

theorem exists_transaction (h : m.counter < m.transactions.size) :
    ∃ t, m.transactions[m.counter]? = some t :=
  ⟨_, Array.getElem?_eq_getElem h⟩

theorem InTurn.stepWith (h : m.InTurn) (count : Nat) : ((stepWith count).on m).2.InTurn := by
  rcases ht : m.transactions[m.counter]? with _ | t
  · rwa [stepWith_halts ht]
  · obtain ⟨registers, rng, channels, ⟨e, hs⟩ | hs⟩ := stepWith_changes ht count
    · rw [hs]
      exact h
    · rw [hs]
      exact fun hne => Nat.mod_lt _ (Array.size_pos_iff.mpr hne)

theorem InTurn.leave (h : m.InTurn) (request : Request) : (request.leave m).InTurn := by
  cases request with
  | load source => exact h.load source
  | prepare => exact h.prepare
  | step count => exact h.stepWith count
  | finish => exact h

theorem InTurn.course (h : m.InTurn) (requests : List Request) : (m.course requests).InTurn := by
  induction requests generalizing m with
  | nil => exact h
  | cons request later ih => exact ih (h.leave request)

theorem Reached.inTurn (h : m.Reached) : m.InTurn := by
  obtain ⟨first, requests, hfirst, rfl⟩ := h
  apply InTurn.course
  intro hne
  exact absurd hfirst.starts.1 hne

/-- The places of the transactions that the steps among some calls carry out, but for steps that
fail. -/
def attempts : Machine → List Request → List Nat
  | _, [] => []
  | m, .step count :: later =>
    match (stepWith count).on m with
    | (.ok .proceed, u) => m.counter :: u.attempts later
    | (_, u) => u.attempts later
  | m, request :: later => (request.leave m).attempts later

end Machine

/-- Calls that take up neither another program nor another place in it. -/
def Request.Continues : Request → Prop
  | load _ => False
  | prepare => False
  | step _ => True
  | finish => True

namespace Machine

variable {m : Machine} {later : List Request}

/-- By induction on the calls: the next place is behind this one, or at the front again. -/
theorem attempts_eq (h : m.counter < m.transactions.size)
    (hl : ∀ request ∈ later, request.Continues) :
    m.attempts later = (List.range (m.attempts later).length).map
      fun i => (m.counter + i) % m.transactions.size := by
  induction later generalizing m with
  | nil => rfl
  | cons request later ih =>
    obtain ⟨hr, hrs⟩ := List.forall_mem_cons.mp hl
    cases request with
    | load source => exact hr.elim
    | prepare => exact hr.elim
    | finish => exact ih h hrs
    | step count =>
      obtain ⟨t, ht⟩ := exists_transaction h
      obtain ⟨registers, rng, channels, ⟨e, hs⟩ | hs⟩ := stepWith_changes ht count
      · -- A step that fails adds no place and leaves the counter.
        have hrest := ih (m := { m with registers, rng, channels }) h hrs
        simpa [attempts, hs] using hrest
      · have hnext : (m.counter + 1) % m.transactions.size < m.transactions.size :=
          Nat.mod_lt _ (by omega)
        have hrest := ih (m := { m with
          registers, rng, channels, counter := (m.counter + 1) % m.transactions.size }) hnext hrs
        have hstep : m.attempts (.step count :: later) = m.counter ::
            attempts
              { m with
                registers, rng, channels, counter := (m.counter + 1) % m.transactions.size }
              later := by
          simp [attempts, hs]
        have hfirst : (m.counter + 0) % m.transactions.size = m.counter := Nat.mod_eq_of_lt h
        rw [hstep, List.length_cons, List.range_succ_eq_map, List.map_cons, List.map_map]
        refine congrArg₂ List.cons hfirst.symm (hrest.trans (List.map_congr_left fun i _ => ?_))
        rw [Function.comp_apply, Nat.mod_add_mod, Nat.add_assoc, Nat.add_comm 1]

/-- In every state that calls lead to, an empty program halts and any other one goes on with the
transaction at the counter. While it is neither loaded nor prepared again, the transactions are carried
out one after the other, around the program, so that each one comes up once in a round; a step that
fails stays at its transaction. -/
theorem transactions_take_turns (m : Machine) (h : m.Reached) :
    (m.transactions = #[] → ∀ count, (stepWith count).on m = (.ok .halt, m)) ∧
    (m.transactions ≠ #[] → m.counter < m.transactions.size ∧
      ∀ count, ((stepWith count).on m).1 ≠ .ok .halt ∧
        ∃ t, m.transactions[m.counter]? = some t ∧ m.CarriesOut t count) ∧
    (∀ later, m.transactions ≠ #[] → (∀ request ∈ later, request.Continues) →
      m.attempts later = ((List.range (m.attempts later).length).map
        fun i => (m.counter + i) % m.transactions.size) ∧
      ∀ rounds, (m.attempts later).length = rounds * m.transactions.size →
        ∀ place < m.transactions.size, (m.attempts later).count place = rounds) ∧
    ∀ count e u, (stepWith count).on m = (.error e, u) → u.counter = m.counter := by
  refine ⟨fun hempty count => ?_, fun hne => ⟨h.inTurn hne, fun count => ?_⟩,
    fun later hne hl => ?_, fun count e u hs => ?_⟩
  · exact stepWith_halts (by simp [hempty]) count
  · obtain ⟨t, ht⟩ := exists_transaction (h.inTurn hne)
    refine ⟨?_, t, ht, carriesOut_of_counter ht count⟩
    obtain ⟨registers, rng, channels, ⟨e, hs⟩ | hs⟩ := stepWith_changes ht count
    · simp [hs]
    · simp [hs]
  · have hplaces := attempts_eq (h.inTurn hne) hl
    refine ⟨hplaces, fun rounds hrounds place hplace => ?_⟩
    rw [hplaces, hrounds]
    exact count_rounds (h.inTurn hne) hplace rounds
  · rcases ht : m.transactions[m.counter]? with _ | t
    · simp [stepWith_halts ht] at hs
    · obtain ⟨registers, rng, channels, ⟨e', hs'⟩ | hs'⟩ := stepWith_changes ht count
      · obtain ⟨-, rfl⟩ : e' = e ∧ _ = u := by simpa [hs'] using hs
        rfl
      · simp [hs'] at hs

def pair : Machine := (seeded 0 []).course [.load "A+1;B+1;", .prepare]

def pairCalls : List Request := [.step 0, .finish, .step 0, .step 0, .step 0]

theorem pair_takes_turns :
    pair.Reached ∧ pair.transactions ≠ #[] ∧ (∀ request ∈ pairCalls, request.Continues) ∧
      pair.attempts pairCalls = [1, 0, 1, 0] ∧
      ∀ place < pair.transactions.size, (pair.attempts pairCalls).count place = 2 := by
  have hreached : pair.Reached := ⟨_, _, new_seeded 0 [], rfl⟩
  have hne : pair.transactions ≠ #[] := by decide +kernel
  have hl : ∀ request ∈ pairCalls, request.Continues := by
    simp [pairCalls, Request.Continues]
  have hplaces : pair.attempts pairCalls = [1, 0, 1, 0] := by decide +kernel
  have hsize : pair.transactions.size = 2 := by decide +kernel
  obtain ⟨-, -, hturns, -⟩ := transactions_take_turns pair hreached
  obtain ⟨-, hrounds⟩ := hturns pairCalls hne hl
  exact ⟨hreached, hne, hl, hplaces, hrounds 2 (by rw [hplaces, hsize]; rfl)⟩

end Machine

end Esolang.Ledger
