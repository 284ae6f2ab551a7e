import Esolang.Language.Basic
import Esolang.Proofs.Queue.Structured
import Esolang.Proofs.Tape.Steps

/-! Loading a source into a machine of any language. The source is read first, which takes nothing of
the machine but its settings, and what comes of it is put into the machine as a whole. -/

namespace Esolang

theorem Grid.Machine.load_on (source : String) (m : Grid.Machine) :
    (load source).on m =
      match Playfield.layOut m.overflow m.field.width m.field.height source.toList with
      | .error e => (.error e, m)
      | .ok field =>
        (.ok (),
          { m with field, x := 0, y := 0, direction := .right, stack := [], stringMode := false }) := by
  rcases hr : Playfield.layOut m.overflow m.field.width m.field.height source.toList with e | field
  · simp [load, hr, Call.on_liftM]
  · simp [load, hr, Call.on_liftM]

theorem Ledger.Machine.load_on (source : String) (m : Ledger.Machine) :
    (load source).on m =
      match parse source.toList with
      | .error e => (.error e, m)
      | .ok transactions =>
        (.ok (), { m with transactions := transactions.toArray, counter := 0 }) := by
  rcases hr : parse source.toList with e | transactions
  · simp [load, hr, Call.on_liftM]
  · simp [load, hr, Call.on_liftM]

namespace Language

variable {l : Language}

/-- The streams of a machine, as the channels of a ledger machine have them. -/
def streams : (l : Language) → l.State → Ledger.Channels
  | abcr, (m : Queue.Machine) => .closed (some m.input) m.output
  | befunge, (m : Grid.Machine) => .closed none m.output
  | brainfuck, (m : Tape.Machine) => .closed (some m.input) m.output
  | monkeys, (m : Troop.Machine) => .closed (some m.input) m.output
  | myUnreliablePast, (m : Ledger.Machine) => m.channels

def rng? : (l : Language) → l.State → Option Rng
  | abcr, _ => none
  | befunge, (m : Grid.Machine) => some m.rng
  | brainfuck, _ => none
  | monkeys, (m : Troop.Machine) => some m.rng
  | myUnreliablePast, (m : Ledger.Machine) => some m.rng

/-- A machine taken from its streams and its generator. What is left is its settings, its program and
the state of the execution. -/
def bare : (l : Language) → l.State → l.State
  | abcr, (m : Queue.Machine) => { m with input := .ofText [], output := {} }
  | befunge, (m : Grid.Machine) => { m with rng := .ofSeed 0, output := {} }
  | brainfuck, (m : Tape.Machine) => { m with input := .ofText [], output := {} }
  | monkeys, (m : Troop.Machine) => { m with rng := .ofSeed 0, input := .ofText [], output := {} }
  | myUnreliablePast, (m : Ledger.Machine) =>
    { m with rng := .ofSeed 0, channels := .closed none {} }

def Program : Language → Type
  | abcr => Array Queue.Instruction
  | befunge => Grid.Playfield
  | brainfuck => Array Char × Array (Option Nat)
  | monkeys => Array Troop.Instruction
  | myUnreliablePast => Array Ledger.Transaction

def read : (l : Language) → l.State → String → Except SourceError l.Program
  | abcr, _, source => Queue.decode source.toList
  | befunge, m, source =>
    Grid.Playfield.layOut (Grid.Machine.overflow m) (Grid.Machine.field m).width
      (Grid.Machine.field m).height source.toList
  | brainfuck, _, source =>
    (Tape.jumpTable source.toList).map fun jumps => (source.toList.toArray, jumps)
  | monkeys, m, source => .ok (Troop.parse (Troop.Machine.strict m) source.toList).toArray
  | myUnreliablePast, _, source => (Ledger.parse source.toList).map List.toArray

/-- Puts a program into a machine, ready for its first instruction. -/
def install : (l : Language) → l.Program → l.State → l.State
  | abcr, (program : Array Queue.Instruction), (m : Queue.Machine) => { m with program, pc := 0 }
  | befunge, (field : Grid.Playfield), (m : Grid.Machine) =>
    { m with field, x := 0, y := 0, direction := .right, stack := [], stringMode := false }
  | brainfuck, ((code, jumps) : Array Char × Array (Option Nat)), (m : Tape.Machine) =>
    { m with code, jumps, ip := 0, pointer := 0, memory := ∅ }
  | monkeys, (code : Array Troop.Instruction), (m : Troop.Machine) => { m with code, pc := 0 }
  | myUnreliablePast, (transactions : Array Ledger.Transaction), (m : Ledger.Machine) =>
    { m with transactions, counter := 0 }

theorem load_on (source : String) (s : l.State) :
    (l.interpreter.load source).on s =
      match l.read s source with
      | .error e => (.error e, s)
      | .ok program => (.ok (), l.install program s) := by
  cases l with
  | abcr =>
    rw [read]
    rcases hr : Queue.decode source.toList with e | program
    · exact Queue.Machine.load_of_error hr s
    · exact Queue.Machine.load_of_ok hr s
  | befunge =>
    have hl := Grid.Machine.load_on source s
    rw [read]
    split at hl
    · next hr => rwa [hr]
    · next hr => rwa [hr]
  | brainfuck =>
    have hl := Tape.Machine.load_on source s
    rw [read]
    split at hl
    · next hr => rwa [hr]
    · next hr => rwa [hr]
  | monkeys => rfl
  | myUnreliablePast =>
    have hl := Ledger.Machine.load_on source s
    rw [read]
    split at hl
    · next hr => rwa [hr]
    · next hr => rwa [hr]

theorem read_bare (source : String) (s : l.State) : l.read (l.bare s) source = l.read s source := by
  cases l <;> rfl

theorem bare_install (program : l.Program) (s : l.State) :
    l.bare (l.install program s) = l.install program (l.bare s) := by
  cases l <;> rfl

theorem streams_install (program : l.Program) (s : l.State) :
    l.streams (l.install program s) = l.streams s := by
  cases l <;> rfl

theorem rng?_install (program : l.Program) (s : l.State) :
    l.rng? (l.install program s) = l.rng? s := by
  cases l <;> rfl

theorem load_of_read {source : String} {s : l.State} {program : l.Program}
    (h : l.read s source = .ok program) :
    (l.interpreter.load source).on s = (.ok (), l.install program s) := by
  rw [load_on, h]

theorem load_of_read_error {source : String} {s : l.State} {e : SourceError}
    (h : l.read s source = .error e) : (l.interpreter.load source).on s = (.error e, s) := by
  rw [load_on, h]

/-- A load leaves the streams and the generator alone, and neither its result nor what it changes
depends on them. If it fails, the machine is as before, and so is the machine behind a run of the
source. -/
theorem load_succeeds_or_changes_nothing (l : Language) (source : String) (s t : l.State)
    (result : Except SourceError Unit) (h : (l.interpreter.load source).on s = (result, t)) :
    (l.streams t = l.streams s ∧ l.rng? t = l.rng? s) ∧
    (∀ s', l.bare s' = l.bare s →
      ∃ t', (l.interpreter.load source).on s' = (result, t') ∧ l.bare t' = l.bare t) ∧
    ∀ e, result = .error e → t = s ∧ ∀ (limits : Limits l.State) (fuel : Nat),
      l.interpreter.runWithin limits fuel source s = (some (.error (.source e)), s) := by
  rcases hr : l.read s source with e | program
  · rw [load_of_read_error hr] at h
    obtain ⟨rfl, rfl⟩ := Prod.mk.inj h
    refine ⟨⟨rfl, rfl⟩, fun s' hs' => ?_, fun d hd => ?_⟩
    · have hr' : l.read s' source = .error e := by rw [← read_bare, hs', read_bare, hr]
      exact ⟨s', load_of_read_error hr', hs'⟩
    · obtain rfl := Except.error.inj hd
      refine ⟨rfl, fun limits fuel => ?_⟩
      rw [Interpreter.runWithin, load_of_read_error hr]
  · rw [load_of_read hr] at h
    obtain ⟨rfl, rfl⟩ := Prod.mk.inj h
    refine ⟨⟨streams_install program s, rng?_install program s⟩, fun s' hs' => ?_, fun d hd => ?_⟩
    · have hr' : l.read s' source = .ok program := by rw [← read_bare, hs', read_bare, hr]
      refine ⟨l.install program s', load_of_read hr', ?_⟩
      rw [bare_install, bare_install, hs']
    · cases hd

def runningLedger : Ledger.Machine :=
  { transactions := #[[⟨.output, .add, 1⟩]], inputChance := .certain, outputChance := .certain
    rng := .ofSeed 0, channels := .flowing ['x'] {} }

theorem open_comment_changes_nothing :
    (myUnreliablePast.interpreter.load "(").on runningLedger =
        (.error (.unbalancedComments 1 0), runningLedger) ∧
      ∀ (limits : Limits Ledger.Machine) (fuel : Nat),
        myUnreliablePast.interpreter.runWithin limits fuel "(" runningLedger =
          (some (.error (.source (.unbalancedComments 1 0))), runningLedger) := by
  have h : (myUnreliablePast.interpreter.load "(").on runningLedger =
      (.error (.unbalancedComments 1 0), runningLedger) := by
    rfl
  obtain ⟨-, -, hfails⟩ :=
    load_succeeds_or_changes_nothing myUnreliablePast "(" runningLedger runningLedger _ h
  obtain ⟨-, hrun⟩ := hfails _ rfl
  exact ⟨h, hrun⟩

end Language

end Esolang
