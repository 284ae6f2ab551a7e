import Esolang.Call
import Esolang.Error
import Esolang.Text.Decimal
import Esolang.Text.Scalar

/-! Output. A sink may accept only so many bytes: of a text that does not fit it keeps the bytes
that do. Machines write characters by their code and numbers in decimal notation. -/

namespace Esolang

structure Sink where
  /-- The bytes written, the last one first. -/
  reversed : List UInt8 := []
  /-- How many more bytes are accepted; no number stands for no bound. -/
  room : Option Nat := none
  flushFails : Bool := false
  deriving DecidableEq

namespace Sink

def bytes (s : Sink) : List UInt8 := s.reversed.reverse

def fitting (s : Sink) (bytes : List UInt8) : List UInt8 :=
  match s.room with
  | none => bytes
  | some room => bytes.take room

def write (bytes : List UInt8) : Call Sink StreamError Unit :=
  .ofFunction fun s =>
    let kept := s.fitting bytes
    (if kept.length = bytes.length then .ok () else .error .outputClosed,
      { s with
        reversed := kept.reverse ++ s.reversed
        room := s.room.map (· - kept.length) })

def flush : Call Sink StreamError Unit :=
  .ofFunction fun s => (if s.flushFails then .error .flushFailed else .ok (), s)

/-- Writes the character with the given code; any other code writes nothing. -/
def writeCode (code : Int) : Call Sink Error Unit :=
  match scalar? code with
  | some c => .mapError .stream (write (String.utf8EncodeChar c))
  | none => throw (.fault (.invalidCharacter code))

def writeNumber (value : Int64) : Call Sink Error Unit :=
  .mapError .stream (write (encodeText (Decimal.ofInt value.toInt)))

theorem bytes_write (text : List UInt8) (s : Sink) :
    ((write text).on s).2.bytes = s.bytes ++ s.fitting text := by
  simp [write, bytes]

end Sink

end Esolang
