import Esolang.Proofs.Stream.Forward
import Esolang.Proofs.Tame

/-! What a stream already holds, and what is left of it. Writing does not see what an output held
before, and reading that succeeds takes whole characters from the front of an input. -/

namespace Esolang

/-- The errors of a run that has begun: all but those of a setting or of the choice of a language. -/
inductive Error.Running : Error → Prop where
  | source (cause : SourceError) : Running (.source cause)
  | fault (cause : Fault) : Running (.fault cause)
  | stream (cause : StreamError) : Running (.stream cause)

namespace Sink

variable {earlier : List UInt8} {s : Sink}

/-- An output that held some bytes already. -/
def behind (earlier : List UInt8) (s : Sink) : Sink :=
  { s with reversed := s.reversed ++ earlier.reverse }

/-- The output takes whatever is written. -/
def Unbounded (s : Sink) : Prop := s.room = none ∧ s.flushFails = false

theorem bytes_behind (earlier : List UInt8) (s : Sink) :
    (s.behind earlier).bytes = earlier ++ s.bytes := by
  simp [behind, bytes]

/-- All that there is to an output without bound is what it holds. -/
theorem Unbounded.behind_eq (h : s.Unbounded) (earlier : List UInt8) :
    s.behind earlier = ({} : Sink).behind (earlier ++ s.bytes) := by
  obtain ⟨reversed, room, flushFails⟩ := s
  obtain ⟨rfl, rfl⟩ : room = none ∧ flushFails = false := h
  simp [behind, bytes]

theorem Unbounded.accepts (h : s.Unbounded) (text : List UInt8) : s.Accepts text where
  room _ hn := nomatch h.1.symm.trans hn
  flush := h.2

theorem Unbounded.written (h : s.Unbounded) (text : List UInt8) : (s.written text).Unbounded := by
  refine ⟨?_, h.2⟩
  rw [Sink.written, h.1, Option.map_none]

theorem write_tame (text : List UInt8) :
    (write text).Tame Unbounded (fun _ => True) (behind earlier) where
  yields s hs := by
    rw [(hs.accepts text).write_on]
    exact hs.written text
  overlooks s := by
    have hfits : (s.behind earlier).fitting text = s.fitting text := rfl
    rw [write, Call.on_ofFunction, Call.on_ofFunction]
    dsimp only
    rw [hfits]
    simp only [behind, List.append_assoc]

theorem flush_tame : flush.Tame Unbounded (fun _ => True) (behind earlier) where
  yields s hs := by
    rw [flush, Call.on_ofFunction, hs.2]
    exact hs
  overlooks _ := rfl

theorem writeCode_tame (code : Int) :
    (writeCode code).Tame Unbounded Error.Running (behind earlier) := by
  unfold writeCode
  cases scalar? code with
  | none => exact .throw (.fault _)
  | some c => exact (write_tame _).mapError fun e _ => .stream e

theorem writeNumber_tame (value : Int64) :
    (writeNumber value).Tame Unbounded Error.Running (behind earlier) :=
  (write_tame _).mapError fun e _ => .stream e

/-- How the machines finish that have an output as a part. -/
theorem flushPart_tame {σ : Type} {p : σ → Prop} {f : σ → σ} {part : σ → Sink}
    {update : σ → Sink → σ} (hpart : ∀ s, p s → (part s).Unbounded)
    (hupdate : ∀ s t, p s → t.Unbounded → p (update s t))
    (hf : ∀ s, part (f s) = (part s).behind earlier)
    (hf' : ∀ s t, update (f s) (t.behind earlier) = f (update s t)) :
    (Call.mapError Error.stream (.onPart part update flush)).Tame p Error.Running f := by
  have hflush : (Call.onPart part update flush).Tame p (fun _ => True) f :=
    flush_tame.onPart hpart hupdate hf hf'
  exact hflush.mapError fun e _ => .stream e

end Sink

namespace Source

variable {given : List UInt8} {s t : Source}

/-- The bytes of a source are what reading some characters has left of the given ones. A character that
was pushed back has been read. -/
def LeftOf (given : List UInt8) (s : Source) : Prop := ∃ text, given = encodeText text ++ s.bytes

theorem leftOf_self (given : List UInt8) : LeftOf given { bytes := given } := ⟨[], rfl⟩

theorem LeftOf.next {c : Option Char} (hs : s.LeftOf given) (h : next.on s = (.ok c, t)) :
    t.LeftOf given := by
  obtain ⟨text, hgiven⟩ := hs
  obtain ⟨bytes, failure, pushed⟩ := s
  rcases pushed with _ | ⟨d, pushed⟩
  · rcases bytes with _ | ⟨lead, rest⟩
    · obtain ⟨-, rfl⟩ := Prod.mk.inj h
      exact ⟨text, hgiven⟩
    · obtain ⟨hread, rfl⟩ := Prod.mk.inj h
      rcases hd : readPiece failure lead rest with e | d
      · rw [hd] at hread
        cases hread
      · refine ⟨text ++ [d], ?_⟩
        dsimp only at hgiven ⊢
        rw [hgiven, readPiece_eq_ok hd, encodeText_append, encodeText_cons, encodeText_nil,
          List.append_nil, List.append_assoc]
  · obtain ⟨-, rfl⟩ := Prod.mk.inj h
    exact ⟨text, hgiven⟩

/-- By induction on what is left: a reading that succeeds is made of such readings of one character. -/
theorem LeftOf.readWhile {p : Char → Bool} (hs : s.LeftOf given)
    (h : (s.readWhile p).2.1 = .ok ()) : (s.readWhile p).2.2.LeftOf given := by
  induction hn : s.remaining using Nat.strongRecOn generalizing s with
  | _ n ih =>
    rcases hnext : Source.next.on s with ⟨e | _ | c, t⟩
    · rw [readWhile_of_error hnext] at h
      cases h
    · rw [readWhile_of_end hnext]
      exact hs.next hnext
    · cases hp : p c with
      | false =>
        have ht : t.LeftOf given := hs.next hnext
        rw [readWhile_of_refused hnext hp]
        exact ht
      | true =>
        rw [readWhile_of_accepted hnext hp] at h ⊢
        exact ih _ (hn ▸ remaining_next hnext) (hs.next hnext) h rfl

theorem require_tame : require.Tame (LeftOf given) Error.Running id where
  yields s hs := by
    rw [require, Call.on_ofFunction]
    rcases hnext : next.on s with ⟨e | _ | c, t⟩
    · exact .stream e
    · exact .fault .endOfInput
    · exact hs.next hnext
  overlooks _ := rfl

end Source

end Esolang
