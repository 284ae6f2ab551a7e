import Esolang.Error

/-! The jump table of a Brainfuck program: the partner of each bracket, found in one pass over the
code with a stack of brackets that are still open. -/

namespace Esolang.Tape

/-- The state of the pass: the table of the code read so far, and the open brackets in it that have
no partner yet, the innermost first. -/
structure Pairing where
  table : Array (Option Nat) := #[]
  opened : List Nat := []

namespace Pairing

def read (p : Pairing) (c : Char) : Except SourceError Pairing :=
  let index := p.table.size
  match c with
  | '[' => .ok { table := p.table.push none, opened := index :: p.opened }
  | ']' =>
    match p.opened with
    | [] => .error (.unmatchedBracket index .closing)
    | partner :: opened =>
      .ok { table := (p.table.push (some partner)).setIfInBounds partner (some index), opened }
  | _ => .ok { p with table := p.table.push none }

/-- The finished table; a bracket that is still open has no partner. -/
def finish (p : Pairing) : Except SourceError (Array (Option Nat)) :=
  match p.opened with
  | [] => .ok p.table
  | index :: _ => .error (.unmatchedBracket index .opening)

end Pairing

/-- The position of the partner of each bracket, and nothing for any other character. -/
def jumpTable (code : List Char) : Except SourceError (Array (Option Nat)) :=
  code.foldlM Pairing.read {} >>= Pairing.finish

end Esolang.Tape
