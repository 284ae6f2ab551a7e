import Esolang.Text.Decimal
import Esolang.Text.Lines

/-! Programs of the Monkeys language. A line names one of seven monkeys and an action; any other
line is dropped. -/

namespace Esolang.Troop

inductive Action where
  | up
  | down
  | left
  | right
  | learn
  | yell
  | play
  | sleep
  | wake
  | grab
  | drop
  | eat
  | mark
  | back
  | teach
  | fight
  | bond
  | ego
  deriving DecidableEq, Repr

namespace Action

def all : List Action :=
  [up, down, left, right, learn, yell, play, sleep, wake, grab, drop, eat, mark, back, teach, fight,
    bond, ego]

def name : Action → String
  | up => "UP"
  | down => "DOWN"
  | left => "LEFT"
  | right => "RIGHT"
  | learn => "LEARN"
  | yell => "YELL"
  | play => "PLAY"
  | sleep => "SLEEP"
  | wake => "WAKE"
  | grab => "GRAB"
  | drop => "DROP"
  | eat => "EAT"
  | mark => "MARK"
  | back => "BACK"
  | teach => "TEACH"
  | fight => "FIGHT"
  | bond => "BOND"
  | ego => "EGO"

def ofName? (text : List Char) : Option Action := all.find? fun a => a.name.toList = text

theorem mem_all (a : Action) : a ∈ all := by cases a <;> decide

end Action

structure Instruction where
  monkey : Fin 7
  action : Action
  deriving DecidableEq, Repr

/-- The monkey with a number from one to seven. -/
def monkeyOfNumber? (number : Nat) : Option (Fin 7) :=
  if h : 1 ≤ number ∧ number ≤ 7 then some ⟨number - 1, by omega⟩ else none

/-- The number of a monkey, counted from one. -/
def numberOf (monkey : Fin 7) : Nat := monkey + 1

/-- Reads a line: a number, one space and the name of an action. Whatever follows after a space is a
comment, and strict reading drops a line that has one. -/
def parseLine? (strict : Bool) (line : List Char) : Option Instruction :=
  match line.splitOn ' ' with
  | number :: name :: comment =>
    if strict && !comment.isEmpty then none
    else
      match (Decimal.natural? number).bind monkeyOfNumber?, Action.ofName? name with
      | some monkey, some action => some { monkey, action }
      | _, _ => none
  | _ => none

def parse (strict : Bool) (source : List Char) : List Instruction :=
  (lines source).filterMap (parseLine? strict)

end Esolang.Troop
