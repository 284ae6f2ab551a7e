import Esolang.Proofs.Grid.Failure
import Esolang.Proofs.Language.Loading
import Esolang.Proofs.Ledger.Emission
import Esolang.Proofs.Tape.Steps

/-! What a load forgets. A machine of any language is built, and then called and handled in any order;
its settings stay what they were, and a load puts back the rest, except for the register and queues of
ABCR, the board of Monkeys and the registers of My Unreliable Past. -/

namespace Esolang

namespace Troop.Machine

variable {strict : Bool}

theorem act_keeps_strict (i : Fin 7) (action : Action) :
    (act i action).Keeps (·.strict = strict) := by
  cases action with
  | learn =>
    intro m hm
    rcases hr : Source.require.on m.input with ⟨_ | c, input⟩
    · simpa [act, learn, hr] using hm
    · simpa [act, learn, hr, setValue, changeMonkey, changeBoard] using hm
  | yell => exact .get_bind fun _ hm => hm
  | wake => exact .pure _
  | _ => exact .modify fun _ hm => hm

theorem execute_keeps_strict (instruction : Instruction) :
    (execute instruction).Keeps (·.strict = strict) := by
  refine .get_bind fun m hm => ?_
  split
  · split
    · exact hm
    · exact hm
  · exact act_keeps_strict _ _ m hm

theorem step_keeps_strict : step.Keeps (·.strict = strict) := by
  refine .get_bind fun m hm => ?_
  split
  · exact hm
  · next instruction _ =>
    split
    · exact hm
    · apply (execute_keeps_strict instruction).bind _ m hm
      intro _ t ht
      exact ht

end Troop.Machine

namespace Ledger.Machine

variable {inputChance outputChance : Chance}

def Chances (inputChance outputChance : Chance) (m : Ledger.Machine) : Prop :=
  m.inputChance = inputChance ∧ m.outputChance = outputChance

theorem emit_keeps_chances : emit.Keeps (Chances inputChance outputChance) := by
  intro m hm
  rw [emit_on]
  split
  · exact hm
  · split
    · exact hm
    · split
      · split
        · exact hm
        · exact hm
      · exact hm

theorem chances_receive {m : Ledger.Machine} (hm : m.Chances inputChance outputChance) :
    m.receive.Chances inputChance outputChance := by
  unfold receive
  split
  · exact hm
  · split
    · dsimp only
      split
      · exact hm
      · exact hm
    · exact hm

theorem chances_randomize {m : Ledger.Machine} (hm : m.Chances inputChance outputChance) :
    m.randomize.Chances inputChance outputChance := by
  rw [randomize]
  generalize randomRegisters m.rng = drawn
  exact hm

theorem chances_openChannels {m : Ledger.Machine} (hm : m.Chances inputChance outputChance) :
    m.openChannels.Chances inputChance outputChance := by
  unfold openChannels
  split
  · exact hm
  · exact hm

theorem prepare_keeps_chances : prepare.Keeps (Chances inputChance outputChance) := by
  apply Call.Keeps.modify
  intro m hm
  exact chances_openChannels (chances_randomize (m := m.closeChannels) hm)

theorem step_keeps_chances : step.Keeps (Chances inputChance outputChance) := by
  intro m hm
  rcases ht : m.transactions[m.counter]? with _ | t
  · simpa [step, ht] using hm
  · rw [step_on ht]
    have he := emit_keeps_chances (m.carryOut t) hm
    rcases hcall : emit.on (m.carryOut t) with ⟨_ | _, u⟩
    · rwa [hcall] at he
    · rw [hcall] at he
      exact chances_receive he

end Ledger.Machine

theorem Queue.Fifo.eq_of_toList_nil {q : Fifo} {get peek : Fallback} (h : q.toList = [])
    (hget : q.onGet = get) (hpeek : q.onPeek = peek) : q = { onGet := get, onPeek := peek } := by
  obtain ⟨front, back, onGet, onPeek⟩ := q
  obtain ⟨hf, hb⟩ : front = [] ∧ back = [] := by simpa [toList] using h
  subst hf hb hget hpeek
  rfl

namespace Language

variable {l : Language} {s₀ s t : l.State}

/-- A machine as it is built; a machine of the Monkeys language may be given another board. -/
def New : (l : Language) → l.State → Prop
  | monkeys, m =>
    ∃ (settings : Settings) (entropy : UInt64) (input : Source) (output : Sink) (board : Troop.Board),
      (board = .start ∨ ∃ text, Troop.Board.ofText? text = some board) ∧
        m = (Troop.Machine.ofConfig settings.troop entropy input output).withBoard board
  | l, s =>
    ∃ (settings : Settings) (entropy : UInt64) (input : Source) (output : Sink),
      l.newState settings entropy input output = .ok s

/-- What can be done to a machine between the calls of its interpreter. -/
def Handles : (l : Language) → l.State → l.State → Prop
  | abcr, (m : Queue.Machine), t =>
    (∃ value, t = m.setRegister value) ∨
      ∃ name q, q.onGet = (m.queue name).onGet ∧ q.onPeek = (m.queue name).onPeek ∧
        t = m.setQueue name q
  | befunge, m, t => ∃ value, t = ((Grid.Machine.resolveDivision value).on m).2
  | brainfuck, _, _ => False
  | monkeys, (m : Troop.Machine), t => ∃ board, t = m.withBoard board
  | myUnreliablePast, (m : Ledger.Machine), t =>
    (∃ r value, t = m.setRegister r value) ∨ ∃ counter, t = { m with counter }

/-- The states that a machine comes to by calls, whether they succeed or fail. -/
inductive History (l : Language) (s₀ : l.State) : l.State → Prop where
  | start : History l s₀ s₀
  | load {s : l.State} (h : History l s₀ s) (source : String) :
    History l s₀ ((l.interpreter.load source).on s).2
  | prepare {s : l.State} (h : History l s₀ s) : History l s₀ (l.interpreter.prepare.on s).2
  | step {s : l.State} (h : History l s₀ s) : History l s₀ (l.interpreter.step.on s).2
  | finish {s : l.State} (h : History l s₀ s) : History l s₀ (l.interpreter.finish.on s).2
  | handle {s t : l.State} (h : History l s₀ s) (ht : l.Handles s t) : History l s₀ t

/-- The settings of a machine are those of another one. ABCR has no settings, but queues that yield
something when they are empty. -/
def SameSettings : (l : Language) → l.State → l.State → Prop
  | abcr, _, t => Queue.Machine.Standard t
  | befunge, m, t => Grid.Machine.SameSettings m t
  | brainfuck, m, t => Tape.Machine.width t = Tape.Machine.width m
  | monkeys, m, t => Troop.Machine.strict t = Troop.Machine.strict m
  | myUnreliablePast, m, t =>
    Ledger.Machine.Chances (Ledger.Machine.inputChance m) (Ledger.Machine.outputChance m) t

theorem sameSettings_install (h : l.SameSettings s₀ s) {source : String} {program : l.Program}
    (hr : l.read s source = .ok program) : l.SameSettings s₀ (l.install program s) := by
  cases l with
  | abcr => exact h
  | befunge =>
    obtain ⟨hw, hh, -⟩ := Grid.Playfield.layOut_ok hr
    have hlaid : Grid.Machine.SameSettings s (befunge.install program s) := ⟨hw, hh, rfl, rfl⟩
    exact Grid.Machine.SameSettings.trans h hlaid
  | brainfuck => exact h
  | monkeys => exact h
  | myUnreliablePast => exact h

theorem sameSettings_handle (h : l.SameSettings s₀ s) (ht : l.Handles s t) :
    l.SameSettings s₀ t := by
  cases l with
  | abcr =>
    rcases ht with ⟨value, rfl⟩ | ⟨name, q, hget, hpeek, rfl⟩
    · exact h
    · exact (Queue.Machine.Standard.setQueue h hget hpeek).2.2
  | befunge =>
    obtain ⟨value, rfl⟩ := ht
    exact Grid.Machine.SameSettings.trans h (Grid.Machine.resolveDivision_sameSettings value s)
  | brainfuck => exact ht.elim
  | monkeys =>
    obtain ⟨board, rfl⟩ := ht
    exact h
  | myUnreliablePast =>
    rcases ht with ⟨r, value, rfl⟩ | ⟨counter, rfl⟩
    · exact h
    · exact h

theorem sameSettings_step (h : l.SameSettings s₀ s) :
    l.SameSettings s₀ (l.interpreter.step.on s).2 := by
  cases l with
  | abcr => exact Queue.Machine.Standard.step h
  | befunge => exact Grid.Machine.SameSettings.trans h (Grid.Machine.step_sameSettings s)
  | brainfuck => exact Tape.Machine.step_keeps_width s h
  | monkeys => exact Troop.Machine.step_keeps_strict s h
  | myUnreliablePast => exact Ledger.Machine.step_keeps_chances s h

theorem sameSettings_prepare (h : l.SameSettings s₀ s) :
    l.SameSettings s₀ (l.interpreter.prepare.on s).2 := by
  cases l with
  | abcr => exact h
  | befunge => exact h
  | brainfuck => exact h
  | monkeys => exact h
  | myUnreliablePast => exact Ledger.Machine.prepare_keeps_chances s h

theorem sameSettings_finish (h : l.SameSettings s₀ s) :
    l.SameSettings s₀ (l.interpreter.finish.on s).2 := by
  cases l with
  | abcr => exact h
  | befunge => exact ⟨h.width, h.height, h.overflow, h.underflow⟩
  | brainfuck => exact h
  | monkeys => exact h
  | myUnreliablePast => exact h

theorem New.standard {m : Queue.Machine} (h : New abcr m) : m.Standard := by
  obtain ⟨settings, entropy, input, output, h⟩ := h
  obtain rfl := Except.ok.inj h
  exact Queue.Machine.standard_new 0 input output

theorem New.sameSettings (h : l.New s) : l.SameSettings s s := by
  cases l with
  | abcr => exact h.standard
  | befunge => exact .refl s
  | brainfuck => rfl
  | monkeys => rfl
  | myUnreliablePast => exact ⟨rfl, rfl⟩

/-- By induction on the history: each call and each handling keeps the settings. -/
theorem History.sameSettings (h : l.History s₀ s) (h₀ : l.New s₀) : l.SameSettings s₀ s := by
  induction h with
  | start => exact h₀.sameSettings
  | @load s _ source ih =>
    rcases hr : l.read s source with e | program
    · rwa [load_of_read_error hr]
    · rw [load_of_read hr]
      exact sameSettings_install ih hr
  | prepare _ ih => exact sameSettings_prepare ih
  | step _ ih => exact sameSettings_step ih
  | finish _ ih => exact sameSettings_finish ih
  | handle _ ht ih => exact sameSettings_handle ih ht

theorem read_eq (h : l.SameSettings s₀ s) (source : String) : l.read s source = l.read s₀ source := by
  cases l with
  | abcr => rfl
  | befunge =>
    rw [read, read, h.width, h.height, h.overflow]
  | brainfuck => rfl
  | monkeys =>
    rw [read, read, show Troop.Machine.strict s = Troop.Machine.strict s₀ from h]
  | myUnreliablePast => rfl

/-- What no load changes is as it was at first: register and queues of ABCR, the board of Monkeys and
the registers of My Unreliable Past. -/
def AsAtFirst : (l : Language) → l.State → l.State → Prop
  | abcr, (m₀ : Queue.Machine), (m : Queue.Machine) =>
    m.register = m₀.register ∧ ∀ name, (m.queue name).toList = (m₀.queue name).toList
  | befunge, _, _ => True
  | brainfuck, _, _ => True
  | monkeys, m₀, m => Troop.Machine.board m = Troop.Machine.board m₀
  | myUnreliablePast, m₀, m => Ledger.Machine.registers m = Ledger.Machine.registers m₀

theorem asAtFirst_of_bare_eq {program : l.Program}
    (h : l.bare (l.install program s) = l.bare (l.install program s₀)) : l.AsAtFirst s₀ s := by
  cases l with
  | abcr =>
    have hr := congrArg Queue.Machine.register h
    have ha := congrArg Queue.Machine.a h
    have hb := congrArg Queue.Machine.b h
    have hc := congrArg Queue.Machine.c h
    refine ⟨hr, fun name => ?_⟩
    cases name with
    | a => exact congrArg Queue.Fifo.toList ha
    | b => exact congrArg Queue.Fifo.toList hb
    | c => exact congrArg Queue.Fifo.toList hc
  | befunge => trivial
  | brainfuck => trivial
  | monkeys =>
    have hb := congrArg Troop.Machine.board h
    exact hb
  | myUnreliablePast =>
    have hr := congrArg Ledger.Machine.registers h
    exact hr

/-- The queues of a new ABCR machine are empty, and an empty queue is known by what it yields. -/
theorem queues_eq_of_asAtFirst {m₀ m : Queue.Machine} (h₀ : New abcr m₀) (hm : m.Standard)
    (h : AsAtFirst abcr m₀ m) : m.register = m₀.register ∧ m.a = m₀.a ∧ m.b = m₀.b ∧ m.c = m₀.c := by
  obtain ⟨settings, entropy, input, output, hnew⟩ := h₀
  obtain rfl := Except.ok.inj hnew
  obtain ⟨ha, hb, hc⟩ := hm
  obtain ⟨hr, hq⟩ := h
  refine ⟨hr, ?_, ?_, ?_⟩
  · exact Queue.Fifo.eq_of_toList_nil (hq .a) ha.1 ha.2
  · exact Queue.Fifo.eq_of_toList_nil (hq .b) hb.1 hb.2
  · exact Queue.Fifo.eq_of_toList_nil (hq .c) hc.1 hc.2

theorem bare_eq_of_asAtFirst (h₀ : l.New s₀) (hs : l.SameSettings s₀ s) (h : l.AsAtFirst s₀ s)
    (program : l.Program) : l.bare (l.install program s) = l.bare (l.install program s₀) := by
  cases l with
  | abcr =>
    obtain ⟨hr, ha, hb, hc⟩ := queues_eq_of_asAtFirst h₀ hs h
    cases s
    cases s₀
    cases hr
    cases ha
    cases hb
    cases hc
    rfl
  | befunge =>
    obtain ⟨-, -, ho, hu⟩ := hs
    cases s
    cases s₀
    cases ho
    cases hu
    rfl
  | brainfuck =>
    cases s
    cases s₀
    cases hs
    rfl
  | monkeys =>
    cases s
    cases s₀
    cases hs
    cases h
    rfl
  | myUnreliablePast =>
    obtain ⟨hi, ho⟩ := hs
    cases s
    cases s₀
    cases hi
    cases ho
    cases h
    rfl

/-- Whatever has been done with a machine, a load that succeeds leaves it as the same load leaves a new
machine with the same settings, up to what no load changes. So a load of Befunge or Brainfuck resets
the whole machine. -/
theorem load_resets_all_but_contents (l : Language) (source : String) (s₀ s fresh t : l.State)
    (h₀ : l.New s₀) (hs : l.History s₀ s) (hfresh : l.bare fresh = l.bare s₀)
    (h : (l.interpreter.load source).on s = (.ok (), t)) :
    ∃ t₀, (l.interpreter.load source).on fresh = (.ok (), t₀) ∧
      (l.bare t = l.bare t₀ ↔ l.AsAtFirst s₀ s) := by
  -- Reading asks the machine for nothing but its settings, which the history has kept.
  have hread : l.read fresh source = l.read s source := by
    rw [← read_bare, hfresh, read_bare, read_eq (hs.sameSettings h₀)]
  rcases hr : l.read s source with e | program
  · rw [load_of_read_error hr] at h
    cases h
  · rw [load_of_read hr] at h
    obtain ⟨-, rfl⟩ := Prod.mk.inj h
    refine ⟨l.install program fresh, load_of_read (hread.trans hr), ?_⟩
    have hbare : l.bare (l.install program fresh) = l.bare (l.install program s₀) := by
      rw [bare_install, bare_install, hfresh]
    rw [hbare]
    exact ⟨asAtFirst_of_bare_eq, fun h => bare_eq_of_asAtFirst h₀ (hs.sameSettings h₀) h program⟩

def firstField : Grid.Machine :=
  { field := .blank 2 1, overflow := .reject, underflow := .fault, rng := .ofSeed 0, output := {} }

/-- Between the quotes of a text that a program pushes. -/
def inText : Grid.Machine :=
  (Grid.Machine.step.on (Grid.Machine.step.on ((Grid.Machine.load "\x221").on firstField).2).2).2

theorem load_in_text_starts_over :
    New befunge firstField ∧ History befunge firstField inText ∧ inText.stringMode = true ∧
      inText.stack = [49] ∧ ∃ t t₀, (befunge.interpreter.load "@").on inText = (.ok (), t) ∧
        (befunge.interpreter.load "@").on firstField = (.ok (), t₀) ∧
        befunge.bare t = befunge.bare t₀ := by
  have h₀ : New befunge firstField :=
    ⟨{ grid := { width := 2, height := 1 } }, 0, .ofText [], {}, rfl⟩
  have hs : History befunge firstField inText := .step (.step (.load .start "\x221"))
  obtain ⟨t, ht⟩ : ∃ t, (befunge.interpreter.load "@").on inText = (.ok (), t) := ⟨_, rfl⟩
  obtain ⟨t₀, ht₀, hbare⟩ :=
    load_resets_all_but_contents befunge "@" firstField inText firstField t h₀ hs rfl ht
  exact ⟨h₀, hs, rfl, rfl, t, t₀, ht, ht₀, hbare.mpr trivial⟩

def firstQueue : Queue.Machine := { input := .ofText [], output := {} }

def firstTroop : Troop.Machine := .ofConfig {} 0 (.ofText []) {}

/-- Where an ABCR program has changed the register, or a Monkeys program the board, the next program
finds it so. -/
theorem load_keeps_register_and_board :
    (∃ s t t₀ : Queue.Machine, New abcr firstQueue ∧ History abcr firstQueue s ∧
      (abcr.interpreter.load "").on s = (.ok (), t) ∧
      (abcr.interpreter.load "").on firstQueue = (.ok (), t₀) ∧ abcr.bare t ≠ abcr.bare t₀) ∧
    ∃ s t t₀ : Troop.Machine, New monkeys firstTroop ∧ History monkeys firstTroop s ∧
      (monkeys.interpreter.load "").on s = (.ok (), t) ∧
      (monkeys.interpreter.load "").on firstTroop = (.ok (), t₀) ∧
      monkeys.bare t ≠ monkeys.bare t₀ := by
  constructor
  · have h₀ : New abcr firstQueue := ⟨{}, 0, .ofText [], {}, rfl⟩
    have hs : History abcr firstQueue _ := .step (.load .start ")")
    refine ⟨_, _, _, h₀, hs, rfl, rfl, fun h => ?_⟩
    have hr := congrArg Queue.Machine.register h
    exact absurd hr (by decide)
  · have h₀ : New monkeys firstTroop := ⟨{}, 0, .ofText [], {}, .start, .inl rfl, rfl⟩
    have hs : History monkeys firstTroop _ := .step (.load .start "1 DOWN")
    refine ⟨_, _, _, h₀, hs, rfl, rfl, fun h => ?_⟩
    have hcell := congrArg (fun m : Troop.Machine => (m.board.monkey 0).cell.y) h
    exact absurd hcell (by decide +kernel)

end Language

end Esolang
