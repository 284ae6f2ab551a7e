import Esolang.Proofs.Ledger.Handover
import Esolang.Proofs.Ledger.Turns

/-! Programs that leave the output register of a ledger machine alone. Preparing draws a value for it
like for any other register, and whether a run can fail is a matter of this value. -/

namespace Esolang.Ledger

/-- A register that no command names keeps its value, whatever becomes of the transaction. -/
theorem get_effect_of_unnamed {t : Transaction} {r : Register} (h : ∀ c ∈ t, c.register ≠ r)
    (registers : Registers) : (t.effect registers).get r = registers.get r := by
  have hmoved (operator : Operator) : moved operator r t = 0 := by
    have hnone : t.filter (fun c => c.operator = operator ∧ c.register = r) = [] :=
      List.filter_eq_nil_iff.mpr fun c hc => by simp [h c hc]
    rw [moved, hnone]
    rfl
  obtain ⟨after, hafter, -, hget⟩ | ⟨hnone, -⟩ := foldlM_effect? t registers
  · have hr := hget r
    rw [balance, hmoved, hmoved, add_zero, sub_zero] at hr
    simpa [Transaction.effect, hafter] using toInt_modEq_iff.mp hr
  · simp [Transaction.effect, hnone]

/-- The output port knows what to do with the value: zero stands for nothing, and any other value is
one more than the code of a character. -/
def Sendable (value : Int64) : Prop := value = 0 ∨ ∃ c : Char, value.toInt = c.toNat + 1

theorem not_sendable_iff {value : Int64} :
    ¬ Sendable value ↔ value ≠ 0 ∧ scalar? (value.toInt - 1) = none := by
  have hcode (c : Char) : scalar? (value.toInt - 1) = some c ↔ value.toInt = c.toNat + 1 := by
    rw [scalar?_eq_some_iff]
    omega
  rw [Sendable, not_or, Option.eq_none_iff_forall_ne_some]
  simp only [ne_eq, hcode, not_exists]

/-- The value of the output register that the generator draws first of all. -/
def drawnOutput (g : Rng) : Int64 := (randomRegisters g).1.get Register.output

namespace Machine

variable {m u start : Machine}

/-- No command of the program names the output register. -/
def SparesOutput (m : Machine) : Prop :=
  ∀ t ∈ m.transactions, ∀ c ∈ t, c.register ≠ Register.output

theorem SparesOutput.get_effect (h : m.SparesOutput) {t : Transaction}
    (ht : m.transactions[m.counter]? = some t) (registers : Registers) :
    (t.effect registers).get Register.output = registers.get Register.output :=
  get_effect_of_unnamed (h t (Array.mem_of_getElem? ht)) registers

/-- The output register has been left alone since `start`, but that it may have been given out. -/
def KeepsOutput (start m : Machine) : Prop :=
  m.registers.get Register.output = start.registers.get Register.output ∨
    Sendable (start.registers.get Register.output) ∧ m.registers.get Register.output = 0

theorem emit_keepsOutput (m : Machine) : m.KeepsOutput (emit.on m).2 := by
  obtain ⟨rng, h | ⟨c, hs, h⟩⟩ := emit_cases m
  · rw [h]
    exact .inl rfl
  · have hcode := scalar?_eq_some_iff.mp hs
    rw [h]
    refine .inr ⟨.inr ⟨c, by omega⟩, ?_⟩
    simp [setRegister, Registers.get_put]

theorem step_keepsOutput (h : m.SparesOutput) : m.KeepsOutput (step.on m).2 := by
  rcases ht : m.transactions[m.counter]? with _ | t
  · rw [step_halts ht]
    exact .inl rfl
  · have hemit := emit_keepsOutput (m.carryOut t)
    have hstart : (m.carryOut t).registers.get Register.output = m.registers.get Register.output :=
      h.get_effect ht m.registers
    rw [step_on ht]
    rcases he : emit.on (m.carryOut t) with ⟨e | _, u⟩
    · rwa [he, KeepsOutput, hstart] at hemit
    · have hreceive := u.receive_takes.others Register.output (.inl (by decide))
      rw [he, KeepsOutput, hstart, ← hreceive] at hemit
      exact hemit

/-- What holds of a machine at each time of a run that began as `start`. -/
structure Follows (start m : Machine) : Prop where
  transactions : m.transactions = start.transactions
  inTurn : m.InTurn
  flows : m.transactions ≠ #[] → m.channels.output? = none
  output : start.KeepsOutput m

theorem Follows.stepWith (h : start.Follows m) (hs : start.SparesOutput) (count : Nat) :
    start.Follows ((stepWith count).on m).2 := by
  have hkept : m.KeepsOutput ((Machine.stepWith count).on m).2 :=
    step_keepsOutput (m := m.within count) (by rwa [SparesOutput, within, h.transactions])
  have htransactions : ((Machine.stepWith count).on m).2.transactions = m.transactions := by
    rcases ht : m.transactions[m.counter]? with _ | t
    · rw [stepWith_halts ht]
    · obtain ⟨registers, rng, channels, ⟨e, hu⟩ | hu⟩ := stepWith_changes ht count <;> rw [hu]
  refine ⟨htransactions.trans h.transactions, h.inTurn.stepWith count, fun hne => ?_, ?_⟩
  · rw [htransactions] at hne
    rw [Channels.output?_eq, ← handles, (stepWith_stays count m).output, handles,
      ← Channels.output?_eq, h.flows hne]
  · rcases h.output with ho | ⟨hsendable, ho⟩
    · rwa [KeepsOutput, ho] at hkept
    · refine .inr ⟨hsendable, ?_⟩
      rcases hkept with hk | ⟨-, hk⟩
      · rw [hk, ho]
      · exact hk

/-- By induction on the steps. -/
theorem follows_course (h : start.Follows m) (hs : start.SparesOutput) (counts : List Nat) :
    start.Follows (m.course (counts.map .step)) := by
  induction counts generalizing m with
  | nil => exact h
  | cons count counts ih => exact ih (h.stepWith hs count)

theorem stuck_iff (h : m.channels.output? = none) : m.Stuck ↔
    ¬ Sendable (m.registers.get Register.output) ∧ (m.outputChance.draw m.rng).1 = true := by
  rw [not_sendable_iff]
  exact ⟨fun ⟨_, hfires, hfull, hcode⟩ => ⟨⟨hfull, hcode⟩, hfires⟩,
    fun ⟨⟨hfull, hcode⟩, hfires⟩ => ⟨h, hfires, hfull, hcode⟩⟩

/-- A step fails if and only if its transaction leaves the output port stuck. -/
theorem stepWith_error_iff {t : Transaction} (ht : m.transactions[m.counter]? = some t)
    (count : Nat) (e : Error) : ((stepWith count).on m).1 = .error e ↔
      (m.carryOut t).Stuck ∧
      e = .fault (.invalidCharacter (((t.effect m.registers).get Register.output).toInt - 1)) := by
  have hstuck : ((m.within count).carryOut t).Stuck ↔ (m.carryOut t).Stuck := by
    have hoff := (m.channels.handles_arrived_stays count).output
    rw [← Channels.output?_eq, ← Channels.output?_eq] at hoff
    exact ⟨fun ⟨hflows, hrest, hfull, hcode⟩ => ⟨hoff.symm.trans hflows, hrest, hfull, hcode⟩,
      fun ⟨hflows, hrest, hfull, hcode⟩ => ⟨hoff.trans hflows, hrest, hfull, hcode⟩⟩
  rw [← hstuck]
  constructor
  · intro h
    have hstep : step.on (m.within count) = (.error e, (step.on (m.within count)).2) :=
      Prod.ext h rfl
    have hemit := (step_error_iff (m := m.within count) ht).mp hstep
    obtain ⟨hs, he, -⟩ := emit_error_iff.mp hemit
    exact ⟨hs, he⟩
  · rintro ⟨hs, he⟩
    have hemit := emit_error_iff.mpr ⟨hs, he, rfl⟩
    exact congrArg Prod.fst ((step_error_iff (m := m.within count) ht).mpr hemit)

theorem Follows.error_iff (h : start.Follows m) (hs : start.SparesOutput) (count : Nat)
    (e : Error) : ((Machine.stepWith count).on m).1 = .error e ↔
      start.transactions ≠ #[] ∧ ¬ Sendable (start.registers.get Register.output) ∧
      (m.outputChance.draw m.rng).1 = true ∧
      e = .fault (.invalidCharacter ((start.registers.get Register.output).toInt - 1)) := by
  by_cases hne : m.transactions = #[]
  · have hhalts := stepWith_halts (m := m) (by simp [hne]) count
    rw [hhalts, ← h.transactions]
    simp [hne]
  · obtain ⟨t, ht⟩ := exists_transaction (h.inTurn hne)
    have hspares : m.SparesOutput := by rwa [SparesOutput, h.transactions]
    have hvalue := hspares.get_effect ht m.registers
    have hstuck : (m.carryOut t).Stuck ↔
        ¬ Sendable (m.registers.get Register.output) ∧ (m.outputChance.draw m.rng).1 = true := by
      rw [stuck_iff (m := m.carryOut t) (h.flows hne), carryOut, hvalue]
    rw [stepWith_error_iff ht, hstuck, hvalue, ← h.transactions]
    -- Once a character has been given out, the register stays empty, and nothing fails any more.
    rcases h.output with ho | ⟨hsendable, ho⟩
    · rw [ho]
      tauto
    · have hzero : Sendable 0 := .inl rfl
      rw [ho]
      exact iff_of_false (fun hf => hf.1.1 hzero) fun hf => hf.2.1 hsendable

theorem follows_prepared (h : m.InTurn) :
    (prepare.on m).2.Follows (prepare.on m).2 where
  transactions := rfl
  inTurn := h.prepare
  flows hne := by
    rw [transactions_prepare] at hne
    rw [Channels.output?_eq, ← handles, handles_prepare]
    simp [hne, Handles.spawn]
  output := .inl rfl

theorem output_prepared (m : Machine) :
    (prepare.on m).2.registers.get Register.output = drawnOutput m.rng := by
  rw [prepare_leaves, openChannels]
  split
  · rfl
  · rfl

/-- The run of a program that leaves the output register alone fails if and only if the program is not
empty and the value that the seed gives to the register cannot be sent. Then each step fails in which
the output port fires, and all of them in the same way. -/
theorem unnamed_output_fails_by_draw (config : Config) (entropy : UInt64) (input : Source)
    (output : Sink) (source : String) (first loaded : Machine)
    (hnew : ofConfig config entropy input output = .ok first)
    (hload : (load source).on first = (.ok (), loaded)) (hs : loaded.SparesOutput) :
    first.rng = .ofSeed (config.seed.getD entropy) ∧
      ∃ m, prepare.on loaded = (.ok (), m) ∧
        m.registers.get Register.output = drawnOutput first.rng ∧
        ∀ counts : List Nat, ∃ u, m.course (counts.map .step) = u ∧
          ∀ count e, ((stepWith count).on u).1 = .error e ↔
            loaded.transactions ≠ #[] ∧ ¬ Sendable (drawnOutput first.rng) ∧
            (u.outputChance.draw u.rng).1 = true ∧
            e = .fault (.invalidCharacter ((drawnOutput first.rng).toInt - 1)) := by
  have hleft : ((load source).on first).2 = loaded := congrArg Prod.snd hload
  have hreached : loaded.Reached :=
    ⟨first, [.load source], ⟨config, entropy, input, output, hnew⟩, hleft⟩
  have hrng : loaded.rng = first.rng := by
    rw [← hleft, load_on]
    split <;> rfl
  have hseed : first.rng = .ofSeed (config.seed.getD entropy) := by
    obtain ⟨inputChance, outputChance, rfl⟩ := eq_of_ofConfig hnew
    rfl
  have hdrawn := output_prepared loaded
  rw [hrng] at hdrawn
  refine ⟨hseed, (prepare.on loaded).2, rfl, hdrawn, fun counts => ⟨_, rfl, fun count e => ?_⟩⟩
  have hspares : (prepare.on loaded).2.SparesOutput := by rwa [SparesOutput, transactions_prepare]
  have hfollows := follows_course (follows_prepared hreached.inTurn) hspares counts
  rw [hfollows.error_iff hspares, transactions_prepare, hdrawn]

/-- A machine for a program that names one register only. -/
def tally (seed : UInt64) : Machine :=
  { seeded seed [] with transactions := #[[⟨⟨0, by decide⟩, .add, 1⟩]] }

theorem tally_sparesOutput (seed : UInt64) : (tally seed).SparesOutput := by
  simp [SparesOutput, tally, Register.output]

/-- A seed that draws a value that the output port can send. -/
theorem tally_never_fails :
    (load "A+1;").on (seeded 6 []) = (.ok (), tally 6) ∧ (tally 6).SparesOutput ∧
      ∃ m, prepare.on (tally 6) = (.ok (), m) ∧ m.registers.get Register.output = 5 ∧
        ∀ (counts : List Nat) count e,
          ((stepWith count).on (m.course (counts.map .step))).1 ≠ .error e := by
  have hload : (load "A+1;").on (seeded 6 []) = (.ok (), tally 6) := by decide +kernel
  have hdrawn : drawnOutput (seeded 6 []).rng = 5 := by decide +kernel
  obtain ⟨-, m, hm, hvalue, hfails⟩ := unnamed_output_fails_by_draw { seed := some 6 } 0 (.ofText [])
    {} "A+1;" (seeded 6 []) (tally 6) (ofConfig_seeded 6 []) hload (tally_sparesOutput 6)
  refine ⟨hload, tally_sparesOutput 6, m, hm, hvalue.trans hdrawn, fun counts count e he => ?_⟩
  obtain ⟨u, rfl, hu⟩ := hfails counts
  obtain ⟨-, hunsendable, -⟩ := (hu count e).mp he
  apply hunsendable
  rw [hdrawn]
  exact .inr ⟨'\x04', by decide⟩

/-- A seed that draws a value that is one more than no character code: the first step fails. -/
theorem tally_fails :
    ofConfig { seed := some 1255868 } 0 (.ofText []) {} = .ok (seeded 1255868 []) ∧
      (load "A+1;").on (seeded 1255868 []) = (.ok (), tally 1255868) ∧
      (tally 1255868).SparesOutput ∧
      ∃ m, prepare.on (tally 1255868) = (.ok (), m) ∧
        (step.on m).1 = .error (.fault (.invalidCharacter 2697349)) :=
  ⟨ofConfig_seeded _ _, by decide +kernel, tally_sparesOutput _, _, rfl, by decide +kernel⟩

end Machine

end Esolang.Ledger
