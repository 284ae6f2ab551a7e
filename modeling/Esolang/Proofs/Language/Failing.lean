import Esolang.Proofs.Language.History
import Esolang.Proofs.Queue.Failure
import Esolang.Proofs.Tape.Failure
import Esolang.Proofs.Troop.Failure

/-! Steps that fail, in any language. A machine that has failed is still at the instruction that failed,
and has lost no more than what the instruction had taken. -/

namespace Esolang.Language

variable {l : Language}

def Reachable (l : Language) (s : l.State) : Prop := ∃ s₀, l.New s₀ ∧ l.History s₀ s

def program : (l : Language) → l.State → l.Program
  | abcr, m => Queue.Machine.program m
  | befunge, m => Grid.Machine.field m
  | brainfuck, m => (Tape.Machine.code m, Tape.Machine.jumps m)
  | monkeys, m => Troop.Machine.code m
  | myUnreliablePast, m => Ledger.Machine.transactions m

def Position : Language → Type
  | abcr => Nat
  | befunge => (Nat × Nat) × Grid.Direction × Bool
  | brainfuck => Nat
  | monkeys => Nat
  | myUnreliablePast => Nat

/-- Where a machine is in its program, and for Befunge also where it goes and whether it is in a
text. -/
def position : (l : Language) → l.State → l.Position
  | abcr, m => Queue.Machine.pc m
  | befunge, (m : Grid.Machine) => ((m.x, m.y), m.direction, m.stringMode)
  | brainfuck, m => Tape.Machine.ip m
  | monkeys, m => Troop.Machine.pc m
  | myUnreliablePast, m => Ledger.Machine.counter m

/-- What a step that fails does to the data of a machine. -/
def Spares : (l : Language) → l.State → Error → l.State → Prop
  | abcr, m, e, t => (Queue.Machine.contents m).Gains e (Queue.Machine.contents t)
  | befunge, (m : Grid.Machine), _, (t : Grid.Machine) =>
    t.field = m.field ∧ t.rng = m.rng ∧ ∃ k, k ≤ 3 ∧ t.stack = m.stack.drop k
  | brainfuck, (m : Tape.Machine), _, (t : Tape.Machine) =>
    t.pointer = m.pointer ∧ t.memory = m.memory
  | monkeys, m, _, t => Troop.Machine.board t = Troop.Machine.board m
  | myUnreliablePast, _, _, _ => True

/-- A step that fails keeps the program and the place in it, and what has been written stays in front
of what it writes. -/
theorem failed_step_keeps_place (l : Language) (s t : l.State) (e : Error) (hs : l.Reachable s)
    (h : l.interpreter.step.on s = (.error e, t)) :
    l.program t = l.program s ∧ l.position t = l.position s ∧
      (l.sinkOf s).bytes <+: (l.sinkOf t).bytes ∧ l.Spares s e t := by
  cases l with
  | abcr =>
    -- Only here does it matter how the state came about: queues with other fallbacks could fail in a
    -- loop test.
    obtain ⟨s₀, h₀, hs⟩ := hs
    obtain ⟨hp, hk, hg⟩ := Queue.Machine.step_error (hs.sameSettings h₀) h
    exact ⟨hp, hk, hg.output, hg⟩
  | befunge =>
    obtain ⟨k, output, hk, rfl, hp⟩ := Grid.Machine.step_error h
    exact ⟨rfl, rfl, hp, rfl, rfl, k, hk, rfl⟩
  | brainfuck =>
    obtain ⟨input, output, rfl, hp⟩ := Tape.Machine.step_error h
    exact ⟨rfl, rfl, hp, rfl, rfl⟩
  | monkeys =>
    obtain ⟨input, output, rfl, hp⟩ := Troop.Machine.step_error h
    exact ⟨rfl, rfl, hp, rfl⟩
  | myUnreliablePast =>
    obtain ⟨registers, rng, rfl⟩ := Ledger.Machine.step_error h
    exact ⟨rfl, rfl, List.prefix_rfl, trivial⟩

/-- The input is an `a` and a byte that begins no character. -/
def cutInput : Queue.Machine := { input := { bytes := [0x61, 0xff] }, output := {} }

def draining : Queue.Machine := ((Queue.Machine.interpreter.load "c").on cutInput).2

theorem draining_keeps_place :
    Reachable abcr draining ∧ ∃ t : Queue.Machine,
      abcr.interpreter.step.on draining = (.error (.stream .notUtf8), t) ∧ t.c.toList = [97] ∧
        t.pc = draining.pc ∧ abcr.Spares draining (.stream .notUtf8) t := by
  have h₀ : New abcr cutInput := ⟨{}, 0, { bytes := [0x61, 0xff] }, {}, rfl⟩
  have hs : Reachable abcr draining := ⟨cutInput, h₀, .load .start "c"⟩
  have hresult : (Queue.Machine.step.on draining).1 = .error (.stream .notUtf8) := by
    decide +kernel
  have hfails : abcr.interpreter.step.on draining =
      (.error (.stream .notUtf8), (Queue.Machine.step.on draining).2) := Prod.ext hresult rfl
  have hc : (Queue.Machine.step.on draining).2.c.toList = [97] := by decide +kernel
  obtain ⟨-, hk, -, hspares⟩ := failed_step_keeps_place abcr draining _ _ hs hfails
  exact ⟨hs, _, hfails, hc, hk, hspares⟩

end Esolang.Language
