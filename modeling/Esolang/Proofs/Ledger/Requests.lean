import Esolang.Proofs.Language.Loading
import Esolang.Proofs.Ledger.Ports
import Esolang.Proofs.Run

/-! Calls on a ledger machine in any order, whatever becomes of them. The input flow works beside the
machine, so that by the time of a step only some of the characters that wait may have arrived. -/

namespace Esolang.Ledger

namespace Channels

variable {channels : Channels}

theorem waiting_arrived (count : Nat) (channels : Channels) :
    (channels.arrived count).waiting = channels.waiting.take count := by
  cases channels with
  | closed input output => exact List.take_nil.symm
  | flowing waiting output => rfl

theorem sink_arrived (count : Nat) (channels : Channels) :
    (channels.arrived count).sink = channels.sink := by
  cases channels <;> rfl

theorem sink_join (late : List Char) (channels : Channels) :
    (channels.join late).sink = channels.sink := by
  cases channels <;> rfl

theorem arrived_of_le {count : Nat} (h : channels.waiting.length ≤ count) :
    channels.arrived count = channels := by
  cases channels with
  | closed input output => rfl
  | flowing waiting output => exact congrArg (flowing · output) (List.take_of_length_le h)

theorem join_arrived (count : Nat) (channels : Channels) :
    (channels.arrived count).join (channels.waiting.drop count) = channels := by
  cases channels with
  | closed input output => rfl
  | flowing waiting output => exact congrArg (flowing · output) (List.take_append_drop count waiting)

theorem join_nil (channels : Channels) : channels.join [] = channels := by
  cases channels with
  | closed input output => rfl
  | flowing waiting output => exact congrArg (flowing · output) (List.append_nil waiting)

end Channels

namespace Machine

variable {m u : Machine}

theorem stepWith_on (count : Nat) (m : Machine) :
    (stepWith count).on m = ((step.on (m.within count)).1,
      (step.on (m.within count)).2.join (m.channels.waiting.drop count)) := rfl

theorem stepWith_of_le {count : Nat} (h : m.channels.waiting.length ≤ count) :
    (stepWith count).on m = step.on m := by
  have hm : m.within count = m := by rw [within, Channels.arrived_of_le h]
  have hu : ∀ u : Machine, u.join [] = u := fun u => by rw [join, Channels.join_nil]
  rw [stepWith_on, hm, List.drop_of_length_le h, hu]

theorem stepLacking_on (lacking : Nat) (m : Machine) :
    (stepLacking lacking).on m = (stepWith (m.channels.waiting.length - lacking)).on m := by
  cases lacking with
  | zero => exact (stepWith_of_le (Nat.le_refl _)).symm
  | succ lacking => rfl

end Machine

inductive Request where
  | load (source : String)
  | prepare
  | step (count : Nat)
  | finish

def Request.leave : Request → Machine → Machine
  | load source, m => ((Machine.load source).on m).2
  | prepare, m => (Machine.prepare.on m).2
  | step count, m => ((Machine.stepWith count).on m).2
  | finish, m => (Machine.finish.on m).2

namespace Machine

variable {m u : Machine}

def course (m : Machine) (requests : List Request) : Machine :=
  requests.foldl (fun m request => request.leave m) m

@[simp] theorem course_nil (m : Machine) : m.course [] = m := rfl

@[simp] theorem course_cons (m : Machine) (request : Request) (later : List Request) :
    m.course (request :: later) = (request.leave m).course later := rfl

@[simp] theorem course_append (m : Machine) (earlier later : List Request) :
    m.course (earlier ++ later) = (m.course earlier).course later :=
  List.foldl_append

/-- A machine as it is built. -/
def New (m : Machine) : Prop :=
  ∃ config entropy input output, ofConfig config entropy input output = .ok m

theorem eq_of_ofConfig {config : Config} {entropy : UInt64} {input : Source} {output : Sink}
    (h : ofConfig config entropy input output = .ok m) : ∃ inputChance outputChance,
      m = { inputChance, outputChance, rng := .ofSeed (config.seed.getD entropy)
            channels := .closed (some input) output } := by
  rw [ofConfig] at h
  split at h
  · cases h
  · cases h
  · exact ⟨_, _, (Except.ok.inj h).symm⟩

theorem New.starts (h : m.New) : m.transactions = #[] ∧
    ∃ input output, m.channels = .closed (some input) output := by
  obtain ⟨config, entropy, input, output, h⟩ := h
  obtain ⟨inputChance, outputChance, rfl⟩ := eq_of_ofConfig h
  exact ⟨rfl, input, output, rfl⟩

/-- A new machine with the settings that hold if none are given, but for the seed. -/
def seeded (seed : UInt64) (text : List Char) : Machine :=
  { inputChance := .words (2 ^ 63), outputChance := .words (2 ^ 63), rng := .ofSeed seed
    channels := .closed (some (.ofText text)) {} }

theorem ofConfig_seeded (seed : UInt64) (text : List Char) :
    ofConfig { seed := some seed } 0 (.ofText text) {} = .ok (seeded seed text) := by
  have hhalf : Chance.ofBinary64? .half = some (.words (2 ^ 63)) := by decide
  simp [ofConfig, hhalf, seeded]

theorem new_seeded (seed : UInt64) (text : List Char) : (seeded seed text).New :=
  ⟨{ seed := some seed }, 0, .ofText text, {}, ofConfig_seeded seed text⟩

/-- A state that calls lead to from a new machine. -/
def Reached (m : Machine) : Prop := ∃ first requests, New first ∧ first.course requests = m

/-- What the output port can do to a machine: nothing, or give out a character. -/
theorem emit_cases (m : Machine) : ∃ rng, (emit.on m).2 = { m with rng } ∨
    ∃ c, scalar? ((m.registers.get Register.output).toInt - 1) = some c ∧
      (emit.on m).2 = { m.setRegister .output 0 with rng, channels := m.channels.send c } := by
  rw [emit_on]
  split
  · exact ⟨_, .inl rfl⟩
  · split
    · exact ⟨_, .inl rfl⟩
    · split
      · split
        · exact ⟨_, .inl rfl⟩
        · next c hs => exact ⟨_, .inr ⟨c, hs, rfl⟩⟩
      · exact ⟨_, .inl rfl⟩

theorem receive_cases (m : Machine) : ∃ rng, m.receive = { m with rng } ∨
    ∃ c waiting output, m.channels = .flowing (c :: waiting) output ∧
      m.receive = { m.setRegister .input (.ofInt (c.toNat + 1)) with
        rng, channels := .flowing waiting output } := by
  rw [receive]
  split
  · exact ⟨_, .inl rfl⟩
  · next waiting output hc =>
    split
    · dsimp only
      split
      · exact ⟨_, .inr ⟨_, _, _, hc, rfl⟩⟩
      · exact ⟨_, .inl rfl⟩
    · exact ⟨_, .inl rfl⟩

theorem emit_changes (m : Machine) :
    ∃ registers rng channels, (emit.on m).2 = { m with registers, rng, channels } := by
  obtain ⟨rng, h | ⟨c, -, h⟩⟩ := emit_cases m
  · exact ⟨_, rng, _, h⟩
  · exact ⟨_, rng, _, h⟩

theorem receive_changes (m : Machine) :
    ∃ registers rng channels, m.receive = { m with registers, rng, channels } := by
  obtain ⟨rng, h | ⟨c, waiting, output, -, h⟩⟩ := receive_cases m
  · exact ⟨_, rng, _, h⟩
  · exact ⟨_, rng, _, h⟩

/-- A step with a transaction, seen from behind: it fails and stays, or goes on to the next one. -/
theorem step_changes {t : Transaction} (ht : m.transactions[m.counter]? = some t) :
    ∃ registers rng channels,
      (∃ e, step.on m = (.error e, { m with registers, rng, channels })) ∨
      step.on m = (.ok .proceed, { m with
        registers, rng, channels, counter := (m.counter + 1) % m.transactions.size }) := by
  obtain ⟨registers, rng, channels, hu⟩ := emit_changes (m.carryOut t)
  rw [step_on ht]
  rcases he : emit.on (m.carryOut t) with ⟨e | _, u⟩
  · rw [he] at hu
    obtain rfl : u = _ := hu
    exact ⟨registers, rng, channels, .inl ⟨e, rfl⟩⟩
  · rw [he] at hu
    obtain rfl : u = _ := hu
    obtain ⟨registers', rng', channels', hv⟩ :=
      receive_changes { m.carryOut t with registers, rng, channels }
    refine ⟨registers', rng', channels', .inr ?_⟩
    dsimp only
    rw [hv]
    rfl

theorem stepWith_changes {t : Transaction} (ht : m.transactions[m.counter]? = some t)
    (count : Nat) :
    ∃ registers rng channels,
      (∃ e, (stepWith count).on m = (.error e, { m with registers, rng, channels })) ∨
      (stepWith count).on m = (.ok .proceed, { m with
        registers, rng, channels, counter := (m.counter + 1) % m.transactions.size }) := by
  obtain ⟨registers, rng, channels, ⟨e, hs⟩ | hs⟩ := step_changes (m := m.within count) ht
  · rw [stepWith_on, hs]
    exact ⟨registers, rng, _, .inl ⟨e, rfl⟩⟩
  · rw [stepWith_on, hs]
    exact ⟨registers, rng, _, .inr rfl⟩

theorem step_halts (ht : m.transactions[m.counter]? = none) : step.on m = (.ok .halt, m) := by
  simp [step, ht]

theorem stepWith_halts (ht : m.transactions[m.counter]? = none) (count : Nat) :
    (stepWith count).on m = (.ok .halt, m) := by
  have hs : step.on (m.within count) = (.ok .halt, m.within count) := step_halts ht
  rw [stepWith_on, hs]
  show (Except.ok Progress.halt, { m with
    channels := (m.channels.arrived count).join (m.channels.waiting.drop count) }) = _
  rw [Channels.join_arrived]

theorem prepare_leaves (m : Machine) :
    (prepare.on m).2 = m.closeChannels.randomize.openChannels := by
  rw [prepare, Call.on_modify]

theorem transactions_randomize (m : Machine) : m.randomize.transactions = m.transactions := by
  rw [randomize]

theorem transactions_prepare (m : Machine) : (prepare.on m).2.transactions = m.transactions := by
  rw [prepare_leaves, openChannels]
  split
  · exact m.closeChannels.transactions_randomize
  · exact m.closeChannels.transactions_randomize

end Machine

end Esolang.Ledger
