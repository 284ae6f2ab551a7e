import Esolang.Proofs.Language.Tame

/-! Runs between an input and an output, in any language. A run does not see what its output held
before, and a run that succeeds has taken whole characters from the front of what it was given. -/

namespace Esolang

variable {given earlier : List UInt8}

namespace Language

variable {l : Language} {s : l.State}

/-- A machine with an output that held some bytes before. -/
def behind (earlier : List UInt8) : (l : Language) → l.State → l.State
  | abcr, m => Queue.Machine.behind earlier m
  | befunge, m => Grid.Machine.behind earlier m
  | brainfuck, m => Tape.Machine.behind earlier m
  | monkeys, m => Troop.Machine.behind earlier m
  | myUnreliablePast, m => Ledger.Machine.behind earlier m

/-- The machine has read whole characters from what it was given, and its output is open. -/
def Serves (given : List UInt8) : (l : Language) → l.State → Prop
  | abcr, m => Queue.Machine.Serves given m
  | befunge, m => Grid.Machine.Serves m
  | brainfuck, m => Tape.Machine.Serves given m
  | monkeys, m => Troop.Machine.Serves given m
  | myUnreliablePast, m => Ledger.Machine.Serves m

theorem interpreter_tame (l : Language) :
    l.interpreter.Tame (l.Serves given) Error.Running (l.behind earlier) := by
  cases l with
  | abcr => exact Queue.Machine.interpreter_tame
  | befunge => exact Grid.Machine.interpreter_tame
  | brainfuck => exact Tape.Machine.interpreter_tame
  | monkeys => exact Troop.Machine.interpreter_tame
  | myUnreliablePast => exact Ledger.Machine.interpreter_tame

theorem stepLacking_tame (lacking : Nat) (l : Language) :
    (l.stepLacking lacking).Tame (l.Serves given) Error.Running (l.behind earlier) := by
  cases l with
  | myUnreliablePast => exact Ledger.Machine.stepLacking_tame lacking
  | _ => exact (interpreter_tame _).step

theorem sinkOf_behind (s : l.State) : l.sinkOf (l.behind earlier s) = (l.sinkOf s).behind earlier := by
  cases l with
  | myUnreliablePast => exact Ledger.Channels.sink_onto _ _
  | _ => rfl

theorem unreadBytes_behind (count : Nat) (s : l.State) :
    l.unreadBytes count (l.behind earlier s) = l.unreadBytes count s := by
  cases l <;> rfl

theorem inputTaken_behind (s : l.State) : l.inputTaken (l.behind earlier s) = l.inputTaken s := by
  cases l with
  | myUnreliablePast => obtain ⟨_, _, _, _, _, _, ⟨_ | input, _⟩ | ⟨_, _⟩⟩ := s <;> rfl
  | _ => rfl

theorem waiting_behind (s : l.State) : l.waiting (l.behind earlier s) = l.waiting s := by
  cases l with
  | myUnreliablePast => exact congrArg List.length (Ledger.Channels.waiting_onto _ _)
  | _ => rfl

theorem Serves.unbounded (h : l.Serves given s) : (l.sinkOf s).Unbounded := by
  cases l with
  | abcr => exact h.1
  | befunge => exact h
  | brainfuck => exact h.1
  | monkeys => exact h.1
  | myUnreliablePast => exact h

/-- A machine shows what its steps have read. -/
theorem Serves.exists_read (h : l.Serves given s) :
    ∃ text unread, given = encodeText text ++ unread ∧
      unread.length = l.unreadBytes given.length s := by
  have hshown : ∀ {input : Source}, input.LeftOf given →
      ∃ text unread, given = encodeText text ++ unread ∧ unread.length = input.bytes.length :=
    fun hleft => hleft.elim fun text htext => ⟨text, _, htext, rfl⟩
  cases l with
  | abcr => exact hshown h.2
  | befunge => exact ⟨[], given, rfl, rfl⟩
  | brainfuck => exact hshown h.2
  | monkeys => exact hshown h.2
  | myUnreliablePast => exact ⟨[], given, rfl, rfl⟩

theorem newState_behind (settings : Settings) (entropy : UInt64) (input : Source) (output : Sink)
    (l : Language) :
    l.newState settings entropy input (output.behind earlier) =
      (l.newState settings entropy input output).map (l.behind earlier) := by
  cases l with
  | abcr => rfl
  | befunge =>
    dsimp only [newState, Grid.Machine.ofConfig]
    split <;> rfl
  | brainfuck =>
    dsimp only [newState, Tape.Machine.ofConfig]
    split <;> rfl
  | monkeys => rfl
  | myUnreliablePast =>
    dsimp only [newState, Ledger.Machine.ofConfig]
    split <;> rfl

theorem serves_newState {settings : Settings} {entropy : UInt64} {output : Sink}
    (houtput : output.Unbounded) (h : l.newState settings entropy { bytes := given } output = .ok s) :
    l.Serves given s := by
  have hinput := Source.leftOf_self given
  cases l with
  | abcr =>
    obtain rfl := Except.ok.inj h
    exact ⟨houtput, hinput⟩
  | befunge =>
    dsimp only [newState, Grid.Machine.ofConfig] at h
    split at h
    · cases h
    · obtain rfl := Except.ok.inj h
      exact houtput
  | brainfuck =>
    dsimp only [newState, Tape.Machine.ofConfig] at h
    split at h
    · obtain rfl := Except.ok.inj h
      exact ⟨houtput, hinput⟩
    · cases h
  | monkeys =>
    obtain rfl := Except.ok.inj h
    exact ⟨houtput, hinput⟩
  | myUnreliablePast =>
    obtain ⟨_, _, rfl⟩ := Ledger.Machine.eq_of_ofConfig h
    exact houtput

theorem newState_error {settings : Settings} {entropy : UInt64} {input : Source} {output : Sink}
    {e : Error} (h : l.newState settings entropy input output = .error e) :
    ∃ cause, e = .config cause := by
  cases l with
  | abcr => cases h
  | befunge =>
    dsimp only [newState, Grid.Machine.ofConfig] at h
    split at h
    · exact ⟨_, (Except.error.inj h).symm⟩
    · cases h
  | brainfuck =>
    dsimp only [newState, Tape.Machine.ofConfig] at h
    split at h
    · cases h
    · exact ⟨_, (Except.error.inj h).symm⟩
  | monkeys => cases h
  | myUnreliablePast =>
    dsimp only [newState, Ledger.Machine.ofConfig] at h
    split at h
    · exact ⟨_, (Except.error.inj h).symm⟩
    · exact ⟨_, (Except.error.inj h).symm⟩
    · cases h

end Language

namespace Machine

variable {language : Language} {m : Machine}

def behind (earlier : List UInt8) (m : Machine) : Machine :=
  ⟨m.language, m.language.behind earlier m.state⟩

def Serves (language : Language) (given : List UInt8) (m : Machine) : Prop :=
  m.language = language ∧ m.language.Serves given m.state

theorem call_tame {ε α : Type} {q : ε → Prop} {select : (l : Language) → Call l.State ε α}
    (h : ∀ l : Language, (select l).Tame (l.Serves given) q (l.behind earlier)) :
    (call select).Tame (Serves language given) q (behind earlier) where
  yields m hm := by
    have hyields := (h m.language).yields m.state hm.2
    rw [call, Call.on_ofFunction]
    rcases hc : (select m.language).on m.state with ⟨e | a, t⟩
    · rwa [hc] at hyields
    · rw [hc] at hyields
      exact ⟨hm.1, hyields⟩
  overlooks m := by
    have hoverlooks := (h m.language).overlooks m.state
    rw [call, Call.on_ofFunction, Call.on_ofFunction]
    dsimp only [behind]
    rw [hoverlooks]

theorem interpreter_tame :
    interpreter.Tame (Serves language given) Error.Running (behind earlier) where
  load source := call_tame fun l => l.interpreter_tame.load source
  prepare := call_tame fun l => l.interpreter_tame.prepare
  step := call_tame fun l => l.interpreter_tame.step
  finish := call_tame fun l => l.interpreter_tame.finish

theorem stepLacking_tame (lacking : Nat) :
    (stepLacking lacking).Tame (Serves language given) Error.Running (behind earlier) :=
  call_tame fun l => l.stepLacking_tame lacking

theorem sink_behind (m : Machine) : (m.behind earlier).sink = m.sink.behind earlier :=
  m.language.sinkOf_behind m.state

theorem unreadBytes_behind (count : Nat) (m : Machine) :
    (m.behind earlier).unreadBytes count = m.unreadBytes count :=
  m.language.unreadBytes_behind count m.state

theorem inputTaken_behind (m : Machine) : (m.behind earlier).inputTaken = m.inputTaken :=
  m.language.inputTaken_behind m.state

theorem waiting_behind (m : Machine) : (m.behind earlier).waiting = m.waiting :=
  m.language.waiting_behind m.state

theorem new_behind (language : Language) (settings : Settings) (entropy : UInt64) (input : Source)
    (output : Sink) :
    new language settings entropy input (output.behind earlier) =
      (new language settings entropy input output).map (behind earlier) := by
  rw [new, new, Language.newState_behind]
  cases language.newState settings entropy input output <;> rfl

theorem serves_new {settings : Settings} {entropy : UInt64}
    (h : new language settings entropy { bytes := given } {} = .ok m) : m.Serves language given := by
  rw [new] at h
  rcases hs : language.newState settings entropy { bytes := given } {} with e | s
  · rw [hs] at h
    cases h
  · rw [hs] at h
    obtain rfl := Except.ok.inj h
    exact ⟨rfl, Language.serves_newState ⟨rfl, rfl⟩ hs⟩

theorem new_error {settings : Settings} {entropy : UInt64} {input : Source}
    {output : Sink} {e : Error} (h : new language settings entropy input output = .error e) :
    ∃ cause, e = .config cause := by
  rw [new] at h
  rcases hs : language.newState settings entropy input output with d | s
  · rw [hs] at h
    obtain rfl := Except.error.inj h
    exact Language.newState_error hs
  · rw [hs] at h
    cases h

end Machine

end Esolang
