import Esolang.Call
import Esolang.Error
import Esolang.Text.Scalar

/-! Character input over bytes. Reading takes a lead byte and as many bytes after it as the lead
announces, valid or not, so that reading can go on after malformed bytes; characters that were
pushed back are read first. -/

namespace Esolang

structure Source where
  bytes : List UInt8
  /-- Reported in place of the end of input. -/
  failure : Option StreamError := none
  /-- Characters pushed back, the next one first. -/
  pushed : List Char := []
  deriving DecidableEq

namespace Source

def ofText (text : List Char) : Source := { bytes := encodeText text }

/-- The number of bytes that a lead byte announces after itself, for bytes that can lead. -/
def announced? (lead : UInt8) : Option Nat :=
  if lead < 0x80 then some 0
  else if lead < 0xC0 then none
  else if lead < 0xE0 then some 1
  else if lead < 0xF0 then some 2
  else if lead < 0xF8 then some 3
  else none

def announced (lead : UInt8) : Nat := (announced? lead).getD 0

/-- What a lead byte and the bytes after it read as. -/
def readPiece (failure : Option StreamError) (lead : UInt8) (rest : List UInt8) :
    Except StreamError Char :=
  match announced? lead with
  | none => .error .notUtf8
  | some count =>
    let tail := rest.take count
    if tail.length < count then .error (failure.getD .notUtf8)
    else
      match decodeFirst? (lead :: tail) with
      | some c => .ok c
      | none => .error .notUtf8

/-- The next character, or none at the end of input. -/
def next : Call Source StreamError (Option Char) :=
  .ofFunction fun s =>
    match s.pushed, s.bytes with
    | c :: pushed, _ => (.ok (some c), { s with pushed })
    | [], [] => (match s.failure with | some e => .error e | none => .ok none, s)
    | [], lead :: rest =>
      ((readPiece s.failure lead rest).map some, { s with bytes := rest.drop (announced lead) })

/-- The next character, where the end of input is a fault. -/
def require : Call Source Error Char :=
  .ofFunction fun s =>
    match next.on s with
    | (.ok (some c), s) => (.ok c, s)
    | (.ok none, s) => (.error (.fault .endOfInput), s)
    | (.error e, s) => (.error (.stream e), s)

def pushBack (c : Char) (s : Source) : Source := { s with pushed := c :: s.pushed }

/-- An upper bound on the characters left, which every reading makes smaller. -/
def remaining (s : Source) : Nat := s.pushed.length + s.bytes.length

theorem remaining_next {s t : Source} {c : Char} (h : next.on s = (.ok (some c), t)) :
    t.remaining < s.remaining := by
  obtain ⟨bytes, failure, pushed⟩ := s
  cases pushed with
  | cons d pushed =>
    simp only [next, Call.on_ofFunction, Prod.mk.injEq] at h
    obtain ⟨-, rfl⟩ := h
    simp [remaining]
  | nil =>
    cases bytes with
    | nil => cases failure <;> simp [next] at h
    | cons lead rest =>
      simp only [next, Call.on_ofFunction, Prod.mk.injEq] at h
      obtain ⟨-, rfl⟩ := h
      simp only [remaining, List.length_drop, List.length_cons]
      omega

/-- Reads characters as long as they satisfy a condition, and pushes the first other one back. The
characters read so far come with the result, also when a later reading fails. -/
def readWhile (p : Char → Bool) (s : Source) : List Char × Except StreamError Unit × Source :=
  match _h : next.on s with
  | (.ok (some c), t) =>
    if p c then
      let (text, result, last) := readWhile p t
      (c :: text, result, last)
    else
      ([], .ok (), t.pushBack c)
  | (.ok none, t) => ([], .ok (), t)
  | (.error e, t) => ([], .error e, t)
termination_by s.remaining
decreasing_by exact remaining_next ‹_›

def readAll (s : Source) : List Char × Except StreamError Unit × Source :=
  s.readWhile fun _ => true

/-- The source behind so many readings, none of them behind one that gives no character. -/
def skip : (readings : Nat) → Source → Source
  | 0, s => s
  | readings + 1, s =>
    match next.on s with
    | (.ok (some _), t) => skip readings t
    | (_, t) => t

end Source

end Esolang
