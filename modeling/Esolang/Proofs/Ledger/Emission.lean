import Esolang.Proofs.Ledger.Atomicity

/-! What a failing step of a ledger machine leaves. The only thing that fails is giving out a register
that holds no character code, and by then the transaction has been carried out. The counter has not
moved, so that the next step carries the same transaction out again. -/

namespace Esolang.Ledger

variable {t : Transaction} {registers : Registers}

theorem Registers.ext_get {registers after : Registers}
    (h : ∀ r : Register, after.get r = registers.get r) : after = registers :=
  Vector.ext fun i hi => h ⟨i, hi⟩

/-- A transaction leaves the registers as they are if it is undone, or if it adds to each of them what
it subtracts. -/
theorem effect_eq_self_iff : t.effect registers = registers ↔
    ¬ ExpectationsMet registers t ∨ ∀ r, moved .add r t ≡ moved .sub r t [ZMOD 2 ^ 64] := by
  obtain ⟨after, hafter, hm, hget⟩ | ⟨hnone, hm⟩ := foldlM_effect? t registers
  · have heffect : t.effect registers = after := by simp [Transaction.effect, hafter]
    rw [heffect, or_iff_right (not_not_intro hm)]
    -- A committed transaction leaves the balance, which is the old value if and only if the sums of
    -- both directions agree.
    constructor
    · rintro rfl r
      have hr := hget r
      simp only [balance, Int.ModEq] at hr ⊢
      omega
    · intro hmoved
      apply Registers.ext_get
      intro r
      apply toInt_modEq_iff.mp
      have hr := hget r
      have hmr := hmoved r
      simp only [balance, Int.ModEq] at hr hmr ⊢
      omega
  · have heffect : t.effect registers = registers := by simp [Transaction.effect, hnone]
    exact iff_of_true heffect (.inl hm)

namespace Machine

variable {m u : Machine}

/-- The output register is due to be given out, but holds no character code. -/
structure Stuck (m : Machine) : Prop where
  flows : m.channels.output? = none
  fires : (m.outputChance.draw m.rng).1 = true
  full : m.registers.get Register.output ≠ 0
  code : scalar? ((m.registers.get Register.output).toInt - 1) = none

theorem emit_on (m : Machine) : emit.on m =
    match m.channels with
    | .closed _ _ => (.ok (), m)
    | .flowing _ _ =>
      if m.registers.get Register.output = 0 then (.ok (), m)
      else if (m.outputChance.draw m.rng).1 then
        match scalar? ((m.registers.get Register.output).toInt - 1) with
        | none =>
          (.error (.fault (.invalidCharacter ((m.registers.get Register.output).toInt - 1))),
            { m with rng := (m.outputChance.draw m.rng).2 })
        | some c =>
          (.ok (), { m.setRegister .output 0 with
            rng := (m.outputChance.draw m.rng).2, channels := m.channels.send c })
      else (.ok (), { m with rng := (m.outputChance.draw m.rng).2 }) := by
  rw [emit, Call.on_bind, Call.on_get]
  cases hc : m.channels with
  | closed input output => simp [hc]
  | flowing waiting output =>
    by_cases hv : m.registers.get Register.output = 0
    · simp [hc, hv]
    · rcases hd : m.outputChance.draw m.rng with ⟨fires, rng⟩
      cases fires with
      | false => simp [hc, hv, hd]
      | true =>
        cases hs : scalar? ((m.registers.get Register.output).toInt - 1) with
        | none => simp [hc, hv, hd, hs]
        | some c => simp [hc, hv, hd, hs, setRegister]

theorem emit_error_iff {e : Error} : emit.on m = (.error e, u) ↔
    m.Stuck ∧ e = .fault (.invalidCharacter ((m.registers.get Register.output).toInt - 1)) ∧
      u = { m with rng := (m.outputChance.draw m.rng).2 } := by
  rw [emit_on]
  constructor
  · intro h
    cases hc : m.channels with
    | closed input output => simp [hc] at h
    | flowing waiting output =>
      simp only [hc] at h
      split at h
      · cases h
      · next hv =>
        split at h
        · next hf =>
          split at h
          · next hs =>
            obtain ⟨rfl, rfl⟩ : Error.fault _ = e ∧ _ = u := by simpa using h
            exact ⟨⟨by rw [hc]; rfl, hf, hv, hs⟩, rfl, rfl⟩
          · cases h
        · cases h
  · rintro ⟨⟨hflows, hf, hv, hs⟩, rfl, rfl⟩
    cases hc : m.channels with
    | closed input output => simp [hc, Channels.output?] at hflows
    | flowing waiting output => simp [hf, hv, hs]

/-- The machine behind a transaction, before anything is given out or taken in. -/
def carryOut (t : Transaction) (m : Machine) : Machine :=
  { m with registers := t.effect m.registers }

theorem step_on (ht : m.transactions[m.counter]? = some t) :
    step.on m =
      match emit.on (m.carryOut t) with
      | (.error e, u) => (.error e, u)
      | (.ok _, u) =>
        (.ok .proceed, { u.receive with
          counter := (u.receive.counter + 1) % u.receive.transactions.size }) := by
  rcases he : emit.on (m.carryOut t) with ⟨e | _, u⟩
  · rw [carryOut] at he
    simp [step, ht, he]
  · rw [carryOut] at he
    simp [step, ht, he]

theorem step_error_iff {e : Error} (ht : m.transactions[m.counter]? = some t) :
    step.on m = (.error e, u) ↔ emit.on (m.carryOut t) = (.error e, u) := by
  rw [step_on ht]
  rcases emit.on (m.carryOut t) with ⟨d | _, v⟩
  · simp
  · simp

/-- A step that fails has got behind the transaction, and no further. -/
theorem step_error {e : Error} (h : step.on m = (.error e, u)) :
    ∃ registers rng, u = { m with registers, rng } := by
  rcases ht : m.transactions[m.counter]? with _ | t
  · simp [step, ht] at h
  · have he := (step_error_iff ht).mp h
    obtain ⟨-, -, rfl⟩ := emit_error_iff.mp he
    exact ⟨_, _, rfl⟩

/-- A step fails if and only if the output register, behind the transaction, is due to be given out and
holds no character code. Then only the transaction has been carried out, and it comes next again, so
that the registers are as before exactly if it was undone or moves nothing. -/
theorem failed_step_leaves_transaction (m : Machine) (t : Transaction)
    (ht : m.transactions[m.counter]? = some t) (e : Error) (u : Machine) :
    (step.on m = (.error e, u) ↔
      (m.carryOut t).Stuck ∧
      e = .fault (.invalidCharacter (((t.effect m.registers).get Register.output).toInt - 1)) ∧
      u = { m.carryOut t with rng := (m.outputChance.draw m.rng).2 }) ∧
    (step.on m = (.error e, u) →
      u.transactions[u.counter]? = some t ∧ u.counter = m.counter ∧
      (u.registers = m.registers ↔
        ¬ ExpectationsMet m.registers t ∨ ∀ r, moved .add r t ≡ moved .sub r t [ZMOD 2 ^ 64])) := by
  have hiff := (step_error_iff (u := u) (e := e) ht).trans emit_error_iff
  refine ⟨hiff, fun h => ?_⟩
  obtain ⟨-, -, rfl⟩ := hiff.mp h
  exact ⟨ht, rfl, effect_eq_self_iff⟩

def counting : Transaction := [⟨.input, .add, 1⟩, ⟨.output, .sub, 1⟩]

def atRest : Machine :=
  { transactions := #[counting], inputChance := .certain, outputChance := .certain, rng := .ofSeed 0
    channels := .flowing [] {} }

theorem failed_step_leaves_counting :
    atRest.transactions[atRest.counter]? = some counting ∧ ExpectationsMet atRest.registers counting ∧
      ∃ e u, step.on atRest = (.error e, u) ∧ u.registers ≠ atRest.registers := by
  have hmet : ExpectationsMet atRest.registers counting := by
    intro earlier c later h hc
    have hmem : c ∈ counting := by simp [h]
    simp [counting] at hmem
    rcases hmem with rfl | rfl <;> cases hc
  obtain ⟨hfails, hleft⟩ := failed_step_leaves_transaction atRest counting rfl
    (.fault (.invalidCharacter (-2))) _
  have hstuck : (atRest.carryOut counting).Stuck := ⟨rfl, rfl, by decide, by decide⟩
  have h := hfails.mpr ⟨hstuck, rfl, rfl⟩
  refine ⟨rfl, hmet, _, _, h, fun hr => ?_⟩
  obtain ⟨-, -, hiff⟩ := hleft h
  rcases hiff.mp hr with hn | hn
  · exact hn hmet
  · exact absurd (hn .input) (by decide)

/-- Stepping again behind a failed step carries the transaction out a second time. -/
theorem transaction_carried_out_twice :
    ∃ e first f second, step.on atRest = (.error e, first) ∧ step.on first = (.error f, second) ∧
      first.counter = atRest.counter ∧ atRest.registers.get Register.input = 0 ∧
      first.registers.get Register.input = 1 ∧ second.registers.get Register.input = 2 :=
  ⟨_, _, _, _, rfl, rfl, rfl, rfl, rfl, rfl⟩

end Machine

end Esolang.Ledger
