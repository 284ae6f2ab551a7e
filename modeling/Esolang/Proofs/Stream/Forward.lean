import Esolang.Proofs.Stream.Decoding

/-! Streams only go forward. Whatever is written stands behind what was written before, also when
only a part of it fits, and all of it does where there is room. Reading takes one character after the
other off the input. -/

namespace Esolang

namespace Sink

theorem bytes_prefix_write (text : List UInt8) (s : Sink) :
    s.bytes <+: ((write text).on s).2.bytes := by
  rw [bytes_write]
  exact List.prefix_append _ _

theorem bytes_prefix_writeCode (code : Int) (s : Sink) :
    s.bytes <+: ((writeCode code).on s).2.bytes := by
  unfold writeCode
  split
  · exact bytes_prefix_write _ s
  · exact List.prefix_rfl

theorem bytes_prefix_writeNumber (value : Int64) (s : Sink) :
    s.bytes <+: ((writeNumber value).on s).2.bytes :=
  bytes_prefix_write _ s

/-- There is room for a text, and flushing succeeds. -/
structure Accepts (s : Sink) (text : List UInt8) : Prop where
  room : ∀ n, s.room = some n → text.length ≤ n
  flush : s.flushFails = false

/-- The sink behind a text that there was room for. -/
def written (text : List UInt8) (s : Sink) : Sink :=
  { s with reversed := text.reverse ++ s.reversed, room := s.room.map (· - text.length) }

variable {s : Sink} {text rest : List UInt8}

theorem bytes_written (text : List UInt8) (s : Sink) : (s.written text).bytes = s.bytes ++ text := by
  simp [written, bytes]

theorem written_nil (s : Sink) : s.written [] = s := by
  simp [written]

theorem written_written (text rest : List UInt8) (s : Sink) :
    (s.written text).written rest = s.written (text ++ rest) := by
  simp [written, Function.comp_def, Nat.sub_sub]

theorem Accepts.left (h : s.Accepts (text ++ rest)) : s.Accepts text := by
  refine ⟨fun n hn => ?_, h.flush⟩
  have hroom := h.room n hn
  rw [List.length_append] at hroom
  omega

theorem Accepts.right (h : s.Accepts (text ++ rest)) : (s.written text).Accepts rest := by
  refine ⟨fun n hn => ?_, h.flush⟩
  obtain ⟨room, hs, rfl⟩ := Option.map_eq_some_iff.mp hn
  have hroom := h.room room hs
  rw [List.length_append] at hroom
  omega

theorem Accepts.write_on (h : s.Accepts text) : (write text).on s = (.ok (), s.written text) := by
  have hfits : s.fitting text = text := by
    unfold fitting
    rcases hs : s.room with _ | n
    · rfl
    · exact List.take_of_length_le (h.room n hs)
  simp [write, hfits, written]

theorem Accepts.writeCode_on {c : Char} (h : s.Accepts (String.utf8EncodeChar c)) :
    (writeCode c.toNat).on s = (.ok (), s.written (String.utf8EncodeChar c)) := by
  rw [writeCode, scalar?_toNat, Call.on_mapError, h.write_on]
  rfl

theorem Accepts.writeNumber_on {value : Int64}
    (h : s.Accepts (encodeText (Decimal.ofInt value.toInt))) :
    (writeNumber value).on s = (.ok (), s.written (encodeText (Decimal.ofInt value.toInt))) := by
  rw [writeNumber, Call.on_mapError, h.write_on]
  rfl

end Sink

namespace Source

/-- Characters are read one by one, and so the source becomes another one. -/
inductive Reads : Source → List Char → Source → Prop where
  | none (s : Source) : Reads s [] s
  | next {s u t : Source} {c : Char} {text : List Char} (h : next.on s = (.ok (some c), u))
    (rest : Reads u text t) : Reads s (c :: text) t

/-- Behind some characters, reading fails. -/
def FailsBehind (s : Source) (text : List Char) (e : StreamError) (t : Source) : Prop :=
  ∃ u, Reads s text u ∧ next.on u = (.error e, t)

theorem failsBehind_of_readAll {s t : Source} {text : List Char} {e : StreamError}
    (h : s.readAll = (text, .error e, t)) : s.FailsBehind text e t := by
  induction text generalizing s with
  | nil =>
    rcases hn : next.on s with ⟨d | _ | c, u⟩
    · have hh := readAll_of_error hn
      obtain ⟨rfl, rfl⟩ : d = e ∧ u = t := by simpa [hh] using h
      exact ⟨s, .none s, hn⟩
    · have hh := readAll_of_end hn
      simp [hh] at h
    · have hh := readAll_of_char hn
      simp [hh] at h
  | cons c text ih =>
    rcases hn : next.on s with ⟨d | _ | d, u⟩
    · have hh := readAll_of_error hn
      simp [hh] at h
    · have hh := readAll_of_end hn
      simp [hh] at h
    · have hh := readAll_of_char hn
      rw [hh] at h
      obtain ⟨⟨rfl, htext⟩, hrest⟩ : (d = c ∧ u.readAll.1 = text) ∧ u.readAll.2 = (.error e, t) := by
        simpa using h
      obtain ⟨v, hv, he⟩ := ih (Prod.ext htext hrest)
      exact ⟨v, .next hn hv, he⟩

end Source

end Esolang
