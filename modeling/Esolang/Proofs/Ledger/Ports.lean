import Esolang.Proofs.Course
import Esolang.Proofs.Ledger.Emission
import Esolang.Proofs.Stream.Decoding

/-! The ports of a ledger machine. Behind each transaction at most one character goes out and at most
one comes in. Over a whole run nothing is lost, repeated or put in another order. -/

namespace Esolang.Ledger

namespace Channels

/-- The characters that the first input flow finds on the input. -/
def decodable : Channels → List Char
  | .closed (some input) _ => input.readAll.1
  | .closed none _ => []
  | .flowing _ _ => []

theorem output?_stop (channels : Channels) : channels.stop.output? = some channels.sink := by
  cases channels <;> rfl

theorem sink_stop (channels : Channels) : channels.stop.sink = channels.sink := by
  cases channels <;> rfl

theorem sink_start (channels : Channels) : channels.start.sink = channels.sink := by
  rcases channels with ⟨_ | input, output⟩ | ⟨waiting, output⟩ <;> rfl

theorem waiting_stop (channels : Channels) : channels.stop.waiting = [] := by
  cases channels <;> rfl

theorem waiting_start_stop (channels : Channels) :
    channels.stop.start.waiting = channels.decodable := by
  rcases channels with ⟨_ | input, output⟩ | ⟨waiting, output⟩ <;> rfl

end Channels

namespace Machine

variable {m u v : Machine} {sent received : Option Char}

/-- The character that the output port gives out next, if it fires. -/
def given? (m : Machine) : Option Char :=
  match m.channels with
  | .closed _ _ => none
  | .flowing _ _ =>
    if m.registers.get Register.output ≠ 0 ∧ (m.outputChance.draw m.rng).1 then
      scalar? ((m.registers.get Register.output).toInt - 1)
    else none

/-- The character that the input port takes in next, if it fires and there is one. -/
def taken? (m : Machine) : Option Char :=
  match m.channels with
  | .closed _ _ => none
  | .flowing waiting _ =>
    if m.registers.get Register.input = 0 ∧ (m.inputChance.draw m.rng).1 then waiting.head?
    else none

/-- The character that goes out in the next step. -/
def sent? (m : Machine) : Option Char :=
  match m.transactions[m.counter]? with
  | some t => (m.carryOut t).given?
  | none => none

/-- The character that comes in in the next step, which has to get past the output port. -/
def received? (m : Machine) : Option Char :=
  match m.transactions[m.counter]? with
  | some t =>
    match emit.on (m.carryOut t) with
    | (.ok _, u) => u.taken?
    | (.error _, _) => none
  | none => none

/-- The registers behind the next transaction, in front of the ports. -/
def committed (m : Machine) : Registers :=
  match m.transactions[m.counter]? with
  | some t => t.effect m.registers
  | none => m.registers

/-- What the output port does: it appends the character that it gives out, if any, and empties the
output register. -/
structure Gives (m u : Machine) (sent : Option Char) : Prop where
  bytes : u.channels.sink.bytes = m.channels.sink.bytes ++ encodeText sent.toList
  room : u.channels.sink.room = none
  waiting : u.channels.waiting = m.channels.waiting
  output : ∀ c, sent = some c → (m.registers.get Register.output).toInt = c.toNat + 1 ∧
    u.registers.get Register.output = 0
  others : ∀ r, r ≠ Register.output ∨ sent = none → u.registers.get r = m.registers.get r

theorem Gives.nothing (h : m.channels.sink.room = none) (hc : u.channels = m.channels)
    (hr : u.registers = m.registers) : m.Gives u none := by
  refine ⟨by simp [hc], by rwa [hc], by rw [hc], ?_, fun r _ => by rw [hr]⟩
  rintro c ⟨⟩

theorem gives_of_scalar {c : Char} {waiting : List Char} {output : Sink} (rng : Rng)
    (hc : m.channels = .flowing waiting output) (hroom : output.room = none)
    (hs : scalar? ((m.registers.get Register.output).toInt - 1) = some c) :
    m.Gives { m.setRegister .output 0 with rng, channels := m.channels.send c } (some c) := by
  have hcode := scalar?_eq_some_iff.mp hs
  have hsink : (m.channels.send c).sink = ((Sink.write (String.utf8EncodeChar c)).on output).2 := by
    rw [hc]
    rfl
  refine ⟨?_, ?_, ?_, ?_, ?_⟩
  · dsimp only
    rw [hsink, Sink.bytes_write, hc, Sink.fitting, hroom]
    simp [Channels.sink]
  · dsimp only
    rw [hsink]
    simp [Sink.write, hroom]
  · dsimp only
    rw [hc]
    rfl
  · rintro d hd
    obtain rfl := Option.some.inj hd
    refine ⟨by omega, ?_⟩
    simp [setRegister, Registers.get_put]
  · rintro r (hr | hr)
    · simp [setRegister, Registers.get_put, Ne.symm hr]
    · cases hr

theorem emit_gives (h : m.channels.sink.room = none) : m.Gives (emit.on m).2 m.given? := by
  rw [emit_on, given?]
  cases hc : m.channels with
  | closed input output => exact .nothing h rfl rfl
  | flowing waiting output =>
    dsimp only
    by_cases hv : m.registers.get Register.output = 0
    · rw [if_pos hv, if_neg fun hh => hh.1 hv]
      exact .nothing h rfl rfl
    · rw [if_neg hv]
      cases hf : (m.outputChance.draw m.rng).1 with
      | false =>
        simp only [Bool.false_eq_true, and_false, if_false]
        exact .nothing h hc.symm rfl
      | true =>
        rw [if_pos rfl, if_pos ⟨hv, rfl⟩]
        cases hs : scalar? ((m.registers.get Register.output).toInt - 1) with
        | none => exact .nothing h hc.symm rfl
        | some c =>
          have hroom : output.room = none := by rwa [hc] at h
          have hgives := gives_of_scalar (m.outputChance.draw m.rng).2 hc hroom hs
          rwa [hc] at hgives

/-- What the input port does: it takes the first character that waits, if any, into the input
register, which has to be empty. -/
structure Takes (m u : Machine) (received : Option Char) : Prop where
  sink : u.channels.sink = m.channels.sink
  waiting : m.channels.waiting = received.toList ++ u.channels.waiting
  input : ∀ c, received = some c → m.registers.get Register.input = 0 ∧
    u.registers.get Register.input = .ofInt (c.toNat + 1)
  others : ∀ r, r ≠ Register.input ∨ received = none → u.registers.get r = m.registers.get r

theorem Takes.nothing (hc : u.channels = m.channels) (hr : u.registers = m.registers) :
    m.Takes u none := by
  refine ⟨by rw [hc], by rw [hc]; rfl, ?_, fun r _ => by rw [hr]⟩
  rintro c ⟨⟩

theorem takes_of_waiting {c : Char} {waiting : List Char} {output : Sink} (rng : Rng)
    (hc : m.channels = .flowing (c :: waiting) output)
    (hempty : m.registers.get Register.input = 0) :
    m.Takes { m.setRegister .input (.ofInt (c.toNat + 1)) with
      rng, channels := .flowing waiting output } (some c) := by
  refine ⟨?_, ?_, ?_, ?_⟩
  · rw [hc]
    rfl
  · rw [hc]
    rfl
  · rintro d hd
    obtain rfl := Option.some.inj hd
    exact ⟨hempty, by simp [setRegister, Registers.get_put]⟩
  · rintro r (hr | hr)
    · simp [setRegister, Registers.get_put, Ne.symm hr]
    · cases hr

theorem receive_takes (m : Machine) : m.Takes m.receive m.taken? := by
  rw [receive, taken?]
  cases hc : m.channels with
  | closed input output => exact .nothing rfl rfl
  | flowing waiting output =>
    dsimp only
    by_cases hv : m.registers.get Register.input = 0
    · rw [if_pos hv]
      rcases hd : m.inputChance.draw m.rng with ⟨fires, rng⟩
      cases fires with
      | false =>
        rw [if_neg fun hh => Bool.noConfusion hh.2]
        exact .nothing hc.symm rfl
      | true =>
        rw [if_pos ⟨hv, rfl⟩]
        cases waiting with
        | nil => exact .nothing hc.symm rfl
        | cons c waiting => exact takes_of_waiting rng hc hv
    · rw [if_neg hv, if_neg fun hh => hv hh.1]
      exact .nothing rfl rfl

/-- What a step does at the ports: the character that goes out was one less than the output register,
which is empty afterwards, and the character that comes in is one less than the input register, which
was empty before. -/
structure Exchanges (m u : Machine) : Prop where
  bytes : u.channels.sink.bytes = m.channels.sink.bytes ++ encodeText m.sent?.toList
  waiting : m.channels.waiting = m.received?.toList ++ u.channels.waiting
  output : ∀ c, m.sent? = some c → (m.committed.get Register.output).toInt = c.toNat + 1 ∧
    u.registers.get Register.output = 0
  input : ∀ c, m.received? = some c → m.committed.get Register.input = 0 ∧
    (u.registers.get Register.input).toInt = c.toNat + 1
  others : ∀ r, (r ≠ Register.output ∨ m.sent? = none) → (r ≠ Register.input ∨ m.received? = none) →
    u.registers.get r = m.committed.get r

theorem toInt_code (c : Char) : (Int64.ofInt (c.toNat + 1)).toInt = c.toNat + 1 := by
  have hc : c.toNat < 0x110000 := toNat_lt c
  exact Int64.toInt_ofInt_of_le (by omega) (by omega)

theorem exchanges_of_ports {t : Transaction} (ht : m.transactions[m.counter]? = some t)
    (hgives : (m.carryOut t).Gives u m.sent?) (htakes : u.Takes v m.received?) :
    m.Exchanges v := by
  have hcommitted : m.committed = (m.carryOut t).registers := by
    rw [committed, ht]
    rfl
  -- Neither port touches the register of the other one.
  refine ⟨?_, ?_, fun c hc => ?_, fun c hc => ?_, fun r hr hr' => ?_⟩
  · rw [htakes.sink]
    exact hgives.bytes
  · rw [← htakes.waiting, hgives.waiting]
    rfl
  · obtain ⟨hcode, hempty⟩ := hgives.output c hc
    rw [hcommitted]
    exact ⟨hcode, (htakes.others _ (.inl (by decide))).trans hempty⟩
  · obtain ⟨hempty, hcode⟩ := htakes.input c hc
    have hkept := hgives.others Register.input (.inl (by decide))
    rw [hcommitted, ← hkept, hcode]
    exact ⟨hempty, toInt_code c⟩
  · rw [htakes.others r hr', hgives.others r hr, hcommitted]

theorem step_exchanges (h : m.channels.sink.room = none) :
    m.Exchanges (step.on m).2 ∧ (step.on m).2.channels.sink.room = none := by
  rcases ht : m.transactions[m.counter]? with _ | t
  · have hhalts : step.on m = (.ok .halt, m) := by simp [step, ht]
    have hsent : m.sent? = none := by simp [sent?, ht]
    have hreceived : m.received? = none := by simp [received?, ht]
    rw [hhalts]
    refine ⟨⟨?_, ?_, ?_, ?_, fun r _ _ => ?_⟩, h⟩
    · simp [hsent]
    · simp [hreceived]
    · simp [hsent]
    · simp [hreceived]
    · simp [committed, ht]
  · have hgives : (m.carryOut t).Gives (emit.on (m.carryOut t)).2 m.sent? := by
      rw [sent?, ht]
      exact emit_gives h
    rw [step_on ht]
    rcases he : emit.on (m.carryOut t) with ⟨e | _, u⟩
    · rw [he] at hgives
      have hreceived : m.received? = none := by simp [received?, ht, he]
      have htakes : u.Takes u m.received? := hreceived ▸ .nothing rfl rfl
      exact ⟨exchanges_of_ports ht hgives htakes, hgives.room⟩
    · rw [he] at hgives
      have hreceived : m.received? = u.taken? := by simp [received?, ht, he]
      obtain ⟨hsink, hwaiting, hinput, hothers⟩ := receive_takes u
      have htakes : u.Takes { u.receive with
          counter := (u.receive.counter + 1) % u.receive.transactions.size } m.received? :=
        hreceived ▸ ⟨hsink, hwaiting, hinput, hothers⟩
      refine ⟨exchanges_of_ports ht hgives htakes, ?_⟩
      show u.receive.channels.sink.room = none
      rw [hsink]
      exact hgives.room

/-- By induction on the number of steps: what goes out is appended, and what comes in is taken from the
front of what waits. -/
theorem run_exchanges (h : m.channels.sink.room = none) (k : Nat) :
    (interpreter.after k m).channels.sink.room = none ∧
      (interpreter.after k m).channels.sink.bytes =
        m.channels.sink.bytes ++ encodeText ((interpreter.visited k m).filterMap sent?) ∧
      m.channels.waiting = (interpreter.visited k m).filterMap received? ++
        (interpreter.after k m).channels.waiting := by
  induction k with
  | zero => exact ⟨h, by simp [Interpreter.visited, Interpreter.after], rfl⟩
  | succ k ih =>
    obtain ⟨hroom, hbytes, hwaiting⟩ := ih
    obtain ⟨hstep, hroom'⟩ := step_exchanges hroom
    rw [Interpreter.filterMap_visited_succ, Interpreter.filterMap_visited_succ]
    refine ⟨hroom', ?_, ?_⟩
    · rw [encodeText_append, ← List.append_assoc, ← hbytes]
      exact hstep.bytes
    · rw [List.append_assoc, hwaiting]
      exact congrArg _ hstep.waiting

theorem channels_randomize (m : Machine) : m.randomize.channels = m.channels := by
  rw [randomize]

theorem channels_openChannels (m : Machine) :
    m.openChannels.channels = if m.transactions.isEmpty then m.channels else m.channels.start := by
  rw [openChannels]
  split
  · rfl
  · rcases m.rng.below m.transactions.size with ⟨counter, rng⟩
    rfl

theorem prepare_on (m : Machine) : ∃ u, prepare.on m = (.ok (), u) ∧
    u.channels.sink = m.channels.sink ∧ u.channels.waiting <+: m.channels.decodable := by
  refine ⟨_, rfl, ?_, ?_⟩
  · rw [channels_openChannels, channels_randomize, closeChannels]
    split
    · exact m.channels.sink_stop
    · exact m.channels.stop.sink_start.trans m.channels.sink_stop
  · rw [channels_openChannels, channels_randomize, closeChannels]
    split
    · rw [m.channels.waiting_stop]
      exact List.nil_prefix
    · exact ⟨[], (List.append_nil _).trans m.channels.waiting_start_stop⟩

/-- A run, from its preparation to its end, on an output that accepts everything. What has been written
at the end is what the steps have sent, in their order. What they have received are the first
characters that could be read from the input. Each step exchanges characters through the ports as it
should. -/
theorem ports_lose_nothing (start : Machine) (h : start.channels.sink.room = none) (k : Nat) :
    ∃ m t output, prepare.on start = (.ok (), m) ∧
      finish.on (interpreter.after k m) = (.ok (), t) ∧
      t.channels.output? = some output ∧
      output.bytes = start.channels.sink.bytes ++
        encodeText ((interpreter.visited k m).filterMap sent?) ∧
      (interpreter.visited k m).filterMap received? <+: start.channels.decodable ∧
      ∀ i < k, (interpreter.after i m).Exchanges (interpreter.after (i + 1) m) := by
  obtain ⟨m, hm, hsink, hwaits⟩ := prepare_on start
  have hroom : m.channels.sink.room = none := by rwa [hsink]
  obtain ⟨-, hbytes, hwaiting⟩ := run_exchanges hroom k
  refine ⟨m, _, _, hm, rfl, Channels.output?_stop _, ?_, ?_, fun i _ => ?_⟩
  · rw [hbytes, hsink]
  · rw [hwaiting] at hwaits
    exact (List.prefix_append _ _).trans hwaits
  · exact (step_exchanges (run_exchanges hroom i).1).1

/-- A machine that gives out the same character again and again, and makes room for each character
that comes in. -/
def repeating : Machine :=
  { transactions := #[[⟨.output, .expect, 0⟩, ⟨.output, .add, 66⟩],
      [⟨.input, .expect, 105⟩, ⟨.input, .sub, 105⟩]]
    inputChance := .certain, outputChance := .certain, rng := .ofSeed 0
    channels := .closed (some (.ofText ['h', 'i'])) {} }

theorem ports_lose_nothing_repeating :
    repeating.channels.sink.room = none ∧
      ∃ m t output, prepare.on repeating = (.ok (), m) ∧
        finish.on (interpreter.after 4 m) = (.ok (), t) ∧
        t.channels.output? = some output ∧ output.bytes = encodeText ['A', 'A'] ∧
        (interpreter.visited 4 m).filterMap received? = ['h', 'i'] := by
  obtain ⟨m, t, output, hm, ht, houtput, hbytes, -, -⟩ := ports_lose_nothing repeating rfl 4
  obtain rfl : (prepare.on repeating).2 = m := congrArg Prod.snd hm
  have hsent : (interpreter.visited 4 (prepare.on repeating).2).filterMap sent? = ['A', 'A'] := by
    decide +kernel
  rw [hsent] at hbytes
  exact ⟨rfl, _, t, output, hm, ht, houtput, hbytes, by decide +kernel⟩

end Machine

end Esolang.Ledger
