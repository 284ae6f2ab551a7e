import Esolang.Error

/-! Instructions of the ABCR machine and their notation. Each character is one instruction; a loop
test and the `x` that closes it hold each other's positions. -/

namespace Esolang.Queue

inductive QueueName where
  | a
  | b
  | c
  deriving DecidableEq, Repr

/-- The value that a loop tests. -/
inductive LoopTest where
  | peek (queue : QueueName)
  | register
  deriving DecidableEq, Repr

inductive Instruction where
  | dequeue (queue : QueueName)
  | enqueue (queue : QueueName)
  | peek (queue : QueueName)
  | length (queue : QueueName)
  /-- Takes the oldest value and adds it to the register. -/
  | add (queue : QueueName)
  /-- Takes the oldest value and subtracts it from the register. -/
  | sub (queue : QueueName)
  | printNumber (queue : QueueName)
  | printChar (queue : QueueName)
  /-- Goes behind the end of the loop when the tested value is zero. -/
  | loop (test : LoopTest) (stop : Nat)
  /-- Goes back to the loop test. -/
  | endLoop (start : Nat)
  | decrement
  | increment
  | readSigned
  | nop
  deriving DecidableEq, Repr

namespace Instruction

/-- The test that opens a loop, for the characters that do. -/
def loopTest? : Char → Option LoopTest
  | '4' => some (.peek .a)
  | '5' => some (.peek .b)
  | '6' => some (.peek .c)
  | '7' => some .register
  | _ => none

def simple : Char → Instruction
  | 'a' => .dequeue .a
  | 'b' => .dequeue .b
  | 'c' => .dequeue .c
  | 'A' => .enqueue .a
  | 'B' => .enqueue .b
  | 'C' => .enqueue .c
  | '1' => .peek .a
  | '2' => .peek .b
  | '3' => .peek .c
  | '!' => .length .a
  | '@' => .length .b
  | '#' => .length .c
  | '*' => .add .a
  | '+' => .add .b
  | ',' => .add .c
  | '-' => .sub .a
  | '.' => .sub .b
  | '/' => .sub .c
  | 'o' => .printNumber .a
  | 'p' => .printNumber .b
  | 'q' => .printNumber .c
  | 'O' => .printChar .a
  | 'P' => .printChar .b
  | 'Q' => .printChar .c
  | '(' => .decrement
  | ')' => .increment
  | 'i' => .readSigned
  | _ => .nop

end Instruction

/-- A program read so far, and the loops in it that are still open, the innermost first. An open
loop stands in the program as an instruction without effect. -/
structure Decoding where
  program : Array Instruction := #[]
  opened : List (Nat × LoopTest) := []

namespace Decoding

def read (d : Decoding) (c : Char) : Except SourceError Decoding :=
  let index := d.program.size
  match Instruction.loopTest? c with
  | some test => .ok { program := d.program.push .nop, opened := (index, test) :: d.opened }
  | none =>
    if c = 'x' then
      match d.opened with
      | [] => .error (.unmatchedLoop index)
      | (start, test) :: opened =>
        .ok
          { program := (d.program.push (.endLoop start)).setIfInBounds start (.loop test index)
            opened }
    else
      .ok { d with program := d.program.push (.simple c) }

/-- The finished program; a loop that is still open has no end. -/
def finish (d : Decoding) : Except SourceError (Array Instruction) :=
  match d.opened with
  | [] => .ok d.program
  | (index, _) :: _ => .error (.unmatchedLoop index)

end Decoding

/-- The instructions of a program, one for each character. -/
def decode (source : List Char) : Except SourceError (Array Instruction) :=
  source.foldlM Decoding.read {} >>= Decoding.finish

end Esolang.Queue
