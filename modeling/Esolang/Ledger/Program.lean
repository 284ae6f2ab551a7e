import Esolang.Error
import Esolang.Text.Blank
import Esolang.Text.Decimal

/-! Programs of My Unreliable Past and their notation. A source is a circle: it is turned to start
at the beginning of a comment, a transaction or a command, and then comments and blanks are
dropped. -/

namespace Esolang.Ledger

/-- A register, by its place among the names. -/
abbrev Register := Fin 24

namespace Register

def names : Vector Char 24 :=
  #v['A', 'B', 'C', 'D', 'E', 'F', 'G', 'H', 'I', 'K', 'L', 'M', 'N', 'O', 'P', 'Q', 'R', 'S', 'T',
    'U', 'W', 'X', 'Y', 'Z']

def name (r : Register) : Char := names.get r

def ofName? (c : Char) : Option Register := names.findFinIdx? (· == c)

/-- The register that takes characters from the input. -/
def input : Register := 8

/-- The register that gives characters to the output. -/
def output : Register := 13

end Register

inductive Operator where
  | add
  | sub
  /-- Undoes the transaction unless the register equals the operand. -/
  | expect
  deriving DecidableEq, Repr

def Operator.ofChar? : Char → Option Operator
  | '+' => some .add
  | '-' => some .sub
  | '=' => some .expect
  | _ => none

structure Command where
  register : Register
  operator : Operator
  operand : Int64
  deriving DecidableEq

abbrev Transaction := List Command

/-- A circle of characters read from a position on. -/
def turn (text : List Char) (start : Nat) : List Char := text.drop start ++ text.take start

/-- Whether a text closes as many comments as are open, and never more than are open. -/
def closes : (opened : Nat) → List Char → Bool
  | opened, [] => opened == 0
  | opened, c :: rest =>
    if c = '(' then closes (opened + 1) rest
    else if c = ')' then
      match opened with
      | 0 => false
      | opened + 1 => closes opened rest
    else closes opened rest

def positions (c : Char) (text : List Char) : List Nat :=
  text.zipIdx.filterMap fun (d, i) => if d = c then some i else none

/-- The first comment from which all comments of the circle are closed in order. -/
def commentStart? (text : List Char) : Option Nat :=
  (positions '(' text).find? fun start => closes 0 (turn text start)

/-- Where a circle without comments starts: behind a semicolon, else behind a comma, else at the
character before an operator. -/
def codeStart (text : List Char) : Nat :=
  let behind (separator : Char) := (text.idxOf? separator).map (· + 1)
  let before (operator : Char) :=
    (text.idxOf? operator).map fun i => (i + text.length - 1) % text.length
  ((behind ';').or <| (behind ',').or <| (before '+').or <| (before '-').or (before '=')).getD 0

def align (source : List Char) : Except SourceError (List Char) :=
  let opened := source.count '('
  let closed := source.count ')'
  if opened ≠ closed then
    .error (.unbalancedComments opened closed)
  else if opened = 0 then
    .ok (turn source (codeStart source))
  else
    match commentStart? source with
    | some start => .ok (turn source start)
    | none => .error .noValidRotation

/-- Drops the characters at any depth but zero, and all parentheses. -/
def stripFrom : (depth : Int) → List Char → List Char
  | _, [] => []
  | depth, c :: rest =>
    if c = '(' then stripFrom (depth + 1) rest
    else if c = ')' then stripFrom (depth - 1) rest
    else if depth = 0 then c :: stripFrom depth rest
    else stripFrom depth rest

/-- Drops the comments of a source that starts outside them. -/
def stripComments (source : List Char) : List Char := stripFrom 0 source

/-- Reads a register name, an operator and a whole number. The error shows the transaction. -/
def parseCommand (transaction command : List Char) : Except SourceError Command :=
  let shown := String.ofList transaction
  match command with
  | name :: symbol :: digit :: digits =>
    match Register.ofName? name, Operator.ofChar? symbol, Decimal.int64? (digit :: digits) with
    | none, _, _ => .error (.unknownRegister name shown)
    | some _, none, _ => .error (.unknownOperator symbol shown)
    | some _, some _, none => .error (.invalidOperand (String.ofList (digit :: digits)) shown)
    | some register, some operator, some operand => .ok { register, operator, operand }
  | _ => .error (.commandTooShort (String.ofList command) shown)

/-- The pieces between separators that are not empty. -/
def pieces (separator : Char) (text : List Char) : List (List Char) :=
  (text.splitOn separator).filter (· ≠ [])

def parseTransaction (text : List Char) : Except SourceError Transaction :=
  (pieces ',' text).mapM (parseCommand text)

def parseCode (code : List Char) : Except SourceError (List Transaction) :=
  (pieces ';' code).mapM parseTransaction

def parse (source : List Char) : Except SourceError (List Transaction) :=
  match align source with
  | .error e => .error e
  | .ok aligned => parseCode ((stripComments aligned).filter fun c => !isBlank c)

end Esolang.Ledger
