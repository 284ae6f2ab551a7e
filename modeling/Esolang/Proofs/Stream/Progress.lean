import Mathlib.Data.List.Basic
import Esolang.Ledger.Machine
import Esolang.Proofs.Stream.Forward
import Esolang.Queue.Machine

/-! Progress of reading, also through malformed input. A call that finds no character pushed back takes
from one to four bytes off the front of the input, so that the pieces taken make up the input, and a loop
that goes on as long as characters come is over after as many calls as there are bytes and characters
pushed back, and one more. -/

namespace Esolang

namespace Source

variable {s t : Source} {p : Char → Bool}

/-- The bytes that the next call takes off the input. -/
def taken (s : Source) : List UInt8 :=
  s.bytes.take (s.bytes.length - (next.on s).2.bytes.length)

theorem taken_eq {piece : List UInt8} (h : s.bytes = piece ++ (next.on s).2.bytes) :
    s.taken = piece := by
  rw [taken]
  generalize (next.on s).2.bytes = rest at h ⊢
  rw [h, List.length_append, Nat.add_sub_cancel, List.take_left]

theorem announced_le (lead : UInt8) : announced lead ≤ 3 := by
  unfold announced announced?
  split_ifs <;> decide

theorem next_pushed {c : Char} {pushed : List Char} (h : s.pushed = c :: pushed) :
    next.on s = (.ok (some c), { s with pushed }) := by
  rw [next, Call.on_ofFunction, h]

theorem next_bytes {lead : UInt8} {rest : List UInt8} (hp : s.pushed = [])
    (h : s.bytes = lead :: rest) : next.on s =
      ((readPiece s.failure lead rest).map some, { s with bytes := rest.drop (announced lead) }) := by
  rw [next, Call.on_ofFunction, hp, h]

theorem next_end (hp : s.pushed = []) (h : s.bytes = []) :
    next.on s = (s.failure.elim (.ok none) .error, s) := by
  rw [next, Call.on_ofFunction, hp, h]
  cases s.failure <;> rfl

theorem taken_pushed {c : Char} {pushed : List Char} (h : s.pushed = c :: pushed) : s.taken = [] := by
  apply taken_eq
  rw [next_pushed h]
  rfl

theorem taken_bytes {lead : UInt8} {rest : List UInt8} (hp : s.pushed = [])
    (h : s.bytes = lead :: rest) : s.taken = lead :: rest.take (announced lead) := by
  apply taken_eq
  rw [next_bytes hp h, h, List.cons_append, List.take_append_drop]

theorem taken_end (h : s.bytes = []) : s.taken = [] := by
  rw [taken, h, List.take_nil]

/-- How far a call goes, whatever it answers. -/
structure Advances (s : Source) : Prop where
  /-- A character that was pushed back comes first, and the input stays as it is. -/
  pushed : ∀ c pushed, s.pushed = c :: pushed → next.on s = (.ok (some c), { s with pushed })
  bytes : s.bytes = s.taken ++ (next.on s).2.bytes
  length : s.pushed = [] → s.bytes ≠ [] → 1 ≤ s.taken.length ∧ s.taken.length ≤ 4
  char : s.pushed = [] → ∀ c, (next.on s).1 = .ok (some c) → s.taken = String.utf8EncodeChar c
  error : s.pushed = [] → ∀ lead rest, s.bytes = lead :: rest → ∀ e, (next.on s).1 = .error e →
    s.taken = lead :: rest.take (announced lead)
  ended : (next.on s).1 = .ok none ↔ s.bytes = [] ∧ s.pushed = [] ∧ s.failure = none

theorem advances_pushed {c : Char} {pushed : List Char} (h : s.pushed = c :: pushed) :
    s.Advances where
  pushed d others hd := next_pushed hd
  bytes := by rw [taken_pushed h, next_pushed h, List.nil_append]
  length hp := by simp [hp] at h
  char hp := by simp [hp] at h
  error hp := by simp [hp] at h
  ended := by simp [next_pushed h, h]

theorem advances_bytes {lead : UInt8} {rest : List UInt8} (hp : s.pushed = [])
    (h : s.bytes = lead :: rest) : s.Advances where
  pushed c pushed hc := next_pushed hc
  bytes := by rw [taken_bytes hp h, next_bytes hp h, h, List.cons_append, List.take_append_drop]
  length _ _ := by
    have hle := announced_le lead
    rw [taken_bytes hp h, List.length_cons, List.length_take]
    omega
  char _ c hc := by
    rw [next_bytes hp h] at hc
    cases hread : readPiece s.failure lead rest with
    | error e => simp [hread, Except.map] at hc
    | ok d =>
      obtain rfl : d = c := by simpa [hread, Except.map] using hc
      apply taken_eq
      rw [next_bytes hp h, h]
      exact readPiece_eq_ok hread
  error _ first others hbytes _ _ := taken_bytes hp hbytes
  ended := by
    rw [next_bytes hp h]
    cases readPiece s.failure lead rest <;> simp [Except.map, h]

theorem advances_end (hp : s.pushed = []) (h : s.bytes = []) : s.Advances where
  pushed c pushed hc := next_pushed hc
  bytes := by rw [taken_end h, next_end hp h, List.nil_append]
  length _ hne := absurd h hne
  char _ c hc := by
    rw [next_end hp h] at hc
    cases hf : s.failure <;> simp [hf] at hc
  error _ lead rest hbytes := by simp [h] at hbytes
  ended := by
    rw [next_end hp h]
    cases hf : s.failure <;> simp [hp, h]

theorem advances (s : Source) : s.Advances := by
  cases hp : s.pushed with
  | cons c pushed => exact advances_pushed hp
  | nil =>
    cases h : s.bytes with
    | nil => exact advances_end hp h
    | cons lead rest => exact advances_bytes hp h

/-- A call on a source, or a character that is pushed back. -/
inductive Request where
  | next
  | pushBack (c : Char)
  deriving DecidableEq

/-- The pieces that the calls take, and the source that is left in the end. Whether a call fails makes no
difference to the next one. -/
def serve : List Request → Source → List (List UInt8) × Source
  | [], s => ([], s)
  | .next :: requests, s =>
    let (pieces, last) := serve requests (next.on s).2
    (s.taken :: pieces, last)
  | .pushBack c :: requests, s => serve requests (s.pushBack c)

theorem serve_next (requests : List Request) (s : Source) : serve (.next :: requests) s =
    (s.taken :: (serve requests (next.on s).2).1, (serve requests (next.on s).2).2) := rfl

theorem bytes_serve (requests : List Request) (s : Source) :
    s.bytes = (serve requests s).1.flatten ++ (serve requests s).2.bytes := by
  induction requests generalizing s with
  | nil => rfl
  | cons request requests ih =>
    cases request with
    | next =>
      have hfirst := s.advances.bytes
      have hrest := ih (next.on s).2
      rw [serve_next, List.flatten_cons, List.append_assoc, ← hrest]
      exact hfirst
    | pushBack c => exact ih (s.pushBack c)

theorem remaining_next_lt (h : s.bytes ≠ []) : (next.on s).2.remaining < s.remaining := by
  cases hp : s.pushed with
  | cons c pushed =>
    rw [next_pushed hp, remaining, remaining, hp]
    simp
  | nil =>
    obtain ⟨lead, rest, hbytes⟩ := List.exists_cons_of_ne_nil h
    rw [next_bytes hp hbytes, remaining, remaining, hp, hbytes]
    simp only [List.length_drop, List.length_cons]
    omega

theorem remaining_pushBack (c : Char) (s : Source) : (s.pushBack c).remaining = s.remaining + 1 := by
  simp only [pushBack, remaining, List.length_cons]
  omega

theorem remaining_serve (requests : List Request) (s : Source) :
    (serve requests s).2.bytes = [] ∨
      (serve requests s).2.remaining + requests.count .next ≤
        s.remaining + requests.countP (· ≠ .next) := by
  -- Each call takes something off what is left, or no byte was left before it.
  induction requests generalizing s with
  | nil => exact .inr (Nat.le_refl _)
  | cons request requests ih =>
    cases request with
    | next =>
      by_cases hempty : s.bytes = []
      · have hsplit := bytes_serve (.next :: requests) s
        rw [hempty] at hsplit
        exact .inl (List.append_eq_nil_iff.mp hsplit.symm).2
      · have hlt := remaining_next_lt hempty
        refine (ih (next.on s).2).imp id fun hrest => ?_
        rw [List.count_cons_self, List.countP_cons_of_neg (by simp), serve_next]
        dsimp only
        omega
    | pushBack c =>
      refine (ih (s.pushBack c)).imp id fun hrest => ?_
      rw [remaining_pushBack] at hrest
      rw [List.count_cons_of_ne (by simp), List.countP_cons_of_pos (by simp), serve]
      omega

theorem flatten_serve {requests : List Request}
    (h : s.remaining + requests.countP (· ≠ .next) ≤ requests.count .next) :
    (serve requests s).1.flatten = s.bytes := by
  have hlast : (serve requests s).2.bytes = [] := by
    refine (remaining_serve requests s).elim id fun hrest => ?_
    apply List.eq_nil_of_length_eq_zero
    rw [remaining] at hrest
    omega
  rw [bytes_serve requests s, hlast, List.append_nil]

/-- A loop that makes so many calls, as long as they answer with characters of some kind. Another
character is pushed back. -/
inductive Loops (p : Char → Bool) :
    Nat → Source → List Char × Except StreamError Unit × Source → Prop where
  | ended {s t : Source} (h : next.on s = (.ok none, t)) : Loops p 1 s ([], .ok (), t)
  | failed {s t : Source} {e : StreamError} (h : next.on s = (.error e, t)) :
    Loops p 1 s ([], .error e, t)
  | refused {s t : Source} {c : Char} (h : next.on s = (.ok (some c), t)) (hp : p c = false) :
    Loops p 1 s ([], .ok (), t.pushBack c)
  | accepted {s t : Source} {c : Char} {calls : Nat} {text : List Char}
    {ending : Except StreamError Unit × Source} (h : next.on s = (.ok (some c), t)) (hp : p c = true)
    (rest : Loops p calls t (text, ending)) : Loops p (calls + 1) s (c :: text, ending)

/-- A loop is over in time if it calls no more often than once for each byte and for each character
pushed back, and once more. -/
def LoopsInTime (p : Char → Bool) (s : Source)
    (outcome : List Char × Except StreamError Unit × Source) : Prop :=
  ∃ calls ≤ s.bytes.length + s.pushed.length + 1, Loops p calls s outcome

theorem loops_readWhile (p : Char → Bool) (s : Source) :
    ∃ calls ≤ s.remaining + 1, Loops p calls s (s.readWhile p) := by
  induction hn : s.remaining using Nat.strongRecOn generalizing s with
  | _ n ih =>
    rcases hnext : next.on s with ⟨e | _ | c, t⟩
    · rw [readWhile_of_error hnext]
      exact ⟨1, by omega, .failed hnext⟩
    · rw [readWhile_of_end hnext]
      exact ⟨1, by omega, .ended hnext⟩
    · cases hp : p c with
      | false =>
        rw [readWhile_of_refused hnext hp]
        exact ⟨1, by omega, .refused hnext hp⟩
      | true =>
        have hlt : t.remaining < n := hn ▸ remaining_next hnext
        obtain ⟨calls, hcalls, hloops⟩ := ih _ hlt t rfl
        rw [readWhile_of_accepted hnext hp]
        exact ⟨calls + 1, by omega, .accepted hnext hp hloops⟩

theorem loopsInTime_readWhile (p : Char → Bool) (s : Source) :
    s.LoopsInTime p (s.readWhile p) := by
  obtain ⟨calls, hcalls, hloops⟩ := loops_readWhile p s
  rw [remaining] at hcalls
  exact ⟨calls, by omega, hloops⟩

theorem Reads.length_le {text : List Char} (h : Reads s text t) :
    text.length + t.remaining ≤ s.remaining := by
  induction h with
  | none s => simp
  | next h rest ih =>
    have hlt := remaining_next h
    rw [List.length_cons]
    omega

/-- A call that finds no character pushed back takes from one to four bytes, namely those of the character
that it answers with, or on an error a lead byte and what is there of the bytes that it announces; and it
answers that there is none exactly where nothing is left. So the pieces taken make up the input, which has
been taken whole after as many calls as there are bytes and characters pushed back. The loops that read
queues, numbers and what waits at a channel are over in time, and so is any other one. -/
theorem reading_always_advances :
    (∀ s : Source, s.Advances) ∧
    (∀ (input : List UInt8) (failure : Option StreamError) (requests : List Request),
      (serve requests { bytes := input, failure }).1.flatten ++
        (serve requests { bytes := input, failure }).2.bytes = input ∧
      (input.length + requests.countP (· ≠ .next) ≤ requests.count .next →
        (serve requests { bytes := input, failure }).1.flatten = input)) ∧
    (∀ s text t, Reads s text t → text.length ≤ s.bytes.length + s.pushed.length) ∧
    (∀ (name : Queue.QueueName) (m : Queue.Machine), ∃ text result input,
      LoopsInTime (fun _ => true) m.input (text, result, input) ∧
      (Queue.Machine.drainInput name).on m = (result.mapError .stream,
        { m.extend name (text.map fun c => Int64.ofInt c.toNat) with input })) ∧
    (∀ m : Queue.Machine, ∃ text result input,
      LoopsInTime Queue.Machine.isNumeric m.input (text, result, input) ∧
      Queue.Machine.readSigned.on m = (match result with
        | .ok () => .ok ((Decimal.int64? text).getD 0)
        | .error e => .error (.stream e), { m with input })) ∧
    ∀ (input : Source) (output : Sink), ∃ text ending,
      LoopsInTime (fun _ => true) input (text, ending) ∧
      (Ledger.Channels.closed (some input) output).start = .flowing text output := by
  refine ⟨advances, fun input failure requests => ?_, fun s text t h => ?_, fun name m => ?_,
    fun m => ?_, fun input output => ?_⟩
  · refine ⟨(bytes_serve requests { bytes := input, failure }).symm, fun hcalls => flatten_serve ?_⟩
    rw [remaining, List.length_nil, Nat.zero_add]
    exact hcalls
  · have hle := h.length_le
    rw [remaining, remaining] at hle
    omega
  · exact ⟨_, _, _, loopsInTime_readWhile _ m.input, rfl⟩
  · exact ⟨_, _, _, loopsInTime_readWhile _ m.input, rfl⟩
  · exact ⟨_, _, loopsInTime_readWhile _ input, rfl⟩

/-- A lead byte with a byte behind it that does not belong to it, one that is no lead byte, and a character
of two bytes. -/
def torn : List UInt8 := [0xE2, 0x82, 0x41, 0xFF, 0xC3, 0xA9]

def tornRequests : List Request :=
  [.next, .next, .pushBack 'x', .next, .next, .next, .next, .next]

theorem torn_input_is_taken :
    torn.length + tornRequests.countP (· ≠ .next) ≤ tornRequests.count .next ∧
      (serve tornRequests { bytes := torn }).1 =
        [[0xE2, 0x82, 0x41], [0xFF], [], [0xC3, 0xA9], [], [], []] ∧
      (serve tornRequests { bytes := torn }).1.flatten = torn ∧
      (next.on { bytes := torn }).1 = .error .notUtf8 ∧
      taken { bytes := torn } = [0xE2, 0x82, 0x41] := by
  obtain ⟨hadvances, hserve, -⟩ := reading_always_advances
  have hcalls : torn.length + tornRequests.countP (· ≠ .next) ≤ tornRequests.count .next := by decide
  have herror : (next.on { bytes := torn }).1 = .error .notUtf8 := by decide +kernel
  have htaken := (hadvances { bytes := torn }).error rfl _ _ rfl _ herror
  exact ⟨hcalls, by decide +kernel, (hserve torn none tornRequests).2 hcalls, herror, htaken⟩

end Source

end Esolang
