import Esolang.Proofs.Invariant
import Esolang.Proofs.Queue.Structured
import Esolang.Proofs.Stream.Forward

/-! What failing instructions of the ABCR machine leave. Reading a queue fails only while C is refilled
from the input, and then C keeps the characters that came before the failure. -/

namespace Esolang.Queue

/-- The codes of characters, as a queue holds them. -/
def codes (text : List Char) : List Int64 := text.map fun c => Int64.ofInt c.toNat

/-- At most the end of C is new: the characters in front of a failure of the input. Bytes may have
been written. -/
structure Contents.Gains (d : Contents) (e : Error) (d' : Contents) : Prop where
  register : d'.register = d.register
  a : d'.queues .a = d.queues .a
  b : d'.queues .b = d.queues .b
  output : d.output.bytes <+: d'.output.bytes
  c : d'.queues .c = d.queues .c ∨ ∃ text failure, e = .stream failure ∧
    d.input.FailsBehind text failure d'.input ∧ d'.queues .c = d.queues .c ++ codes text

namespace Contents

theorem Gains.of_streams {d : Contents} {e : Error} {input : Source} {output : Sink}
    (h : d.output.bytes <+: output.bytes) : d.Gains e { d with input, output } :=
  ⟨rfl, rfl, rfl, h, .inl rfl⟩

theorem take_failsAs (name : QueueName) : (take name).FailsAs Gains := by
  intro d e t h
  rw [take, Call.on_ofFunction] at h
  split at h
  · cases h
  · cases h
  · cases h
  · next _ _ hq =>
    rcases hread : d.input.readAll with ⟨text, result, input⟩
    rw [hread] at h
    cases result with
    | error failure =>
      obtain ⟨rfl, rfl⟩ : Error.stream failure = e ∧ _ = t := by simpa using h
      have hbehind := Source.failsBehind_of_readAll hread
      refine ⟨rfl, by simp [setQueue], by simp [setQueue], List.prefix_rfl,
        .inr ⟨text, failure, rfl, hbehind, ?_⟩⟩
      simp [setQueue, hq, codes]
    | ok _ =>
      cases text with
      | nil =>
        obtain ⟨rfl, rfl⟩ : Error.fault .endOfInput = e ∧ { d with input } = t := by simpa using h
        exact .of_streams List.prefix_rfl
      | cons c text => simp at h

theorem peek_bind_failsAs (name : QueueName) {rest : Int64 → Call Contents Error Unit}
    (h : ∀ value, (rest value).FailsAs Gains) : (peek name >>= rest).FailsAs Gains := by
  intro d e t hf
  rw [Call.on_bind, peek, Call.on_ofFunction] at hf
  exact h _ d e t hf

theorem onOutput_failsAs {call : Call Sink Error Unit}
    (h : ∀ s : Sink, s.bytes <+: (call.on s).2.bytes) : (onOutput call).FailsAs Gains := by
  intro d e t hf
  obtain ⟨-, rfl⟩ := Prod.mk.inj hf
  exact .of_streams (h d.output)

theorem readSigned_failsAs : readSigned.FailsAs Gains := by
  intro d e t hf
  obtain ⟨-, rfl⟩ := Prod.mk.inj hf
  exact .of_streams List.prefix_rfl

theorem perform_failsAs (instruction : Instruction) : (perform instruction).FailsAs Gains := by
  cases instruction with
  | dequeue name => exact (take_failsAs name).bind_modify _
  | enqueue name => exact .modify _
  | peek name => exact peek_bind_failsAs name fun _ => .modify _
  | length name => exact .modify _
  | add name => exact (take_failsAs name).bind_modify _
  | sub name => exact (take_failsAs name).bind_modify _
  | printNumber name =>
    exact peek_bind_failsAs name fun _ => onOutput_failsAs (Sink.bytes_prefix_writeNumber _)
  | printChar name =>
    exact peek_bind_failsAs name fun _ => onOutput_failsAs (Sink.bytes_prefix_writeCode _)
  | decrement => exact .modify _
  | increment => exact .modify _
  | readSigned => exact readSigned_failsAs.bind_modify _
  | loop _ _ => exact .pure _
  | endLoop _ => exact .pure _
  | nop => exact .pure _

end Contents

namespace Machine

variable {m t : Machine}

theorem step_error {e : Error} (hm : m.Standard) (h : step.on m = (.error e, t)) :
    t.program = m.program ∧ t.pc = m.pc ∧ m.contents.Gains e t.contents := by
  rcases hc : m.program[m.pc]? with _ | instruction
  · simp [step, hc] at h
  · have hcarries := step_carries hm hc
    rw [h] at hcarries
    have hresult := hcarries.result_eq
    rcases hp : (Contents.perform instruction).on m.contents with ⟨d | _, u⟩
    · rw [hp] at hresult
      obtain rfl := Except.error.inj hresult
      have hgains := Contents.perform_failsAs instruction _ _ _ hp
      refine ⟨hcarries.program_eq, hcarries.place e rfl, ?_⟩
      rwa [hcarries.contents_eq, hp]
    · rw [hp] at hresult
      cases hresult

end Machine

end Esolang.Queue
