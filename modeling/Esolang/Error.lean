import Esolang.Binary64

/-! What can go wrong, by cause: malformed source, a failed choice of language, a fault of the
running program, a failed stream, a setting out of range. Each cause has its message. -/

namespace Esolang

inductive BracketSide where
  | opening
  | closing
  deriving DecidableEq, Repr

/-- Malformed source, found before the first instruction runs. Positions count characters. -/
inductive SourceError where
  | unmatchedBracket (index : Nat) (side : BracketSide)
  | unmatchedLoop (index : Nat)
  | gridOverflow (line column width height : Nat)
  | unbalancedComments (opened closed : Nat)
  | noValidRotation
  | commandTooShort (command transaction : String)
  | unknownRegister (register : Char) (transaction : String)
  | unknownOperator (operator : Char) (transaction : String)
  | invalidOperand (operand transaction : String)
  deriving DecidableEq, Repr

/-- No single language fits a file name or a given name. -/
inductive SelectionError where
  | unknownExtension (extension : String)
  | ambiguousExtension (extension : String) (candidates : List String)
  | unknownLanguage (language : String)
  deriving DecidableEq, Repr

/-- The program did something that its machine cannot do. -/
inductive Fault where
  | stackUnderflow (instruction : Char)
  /-- The stack has its top first and still holds the operands. -/
  | divisionByZero (instruction : Char) (stack : List Int64)
  | outOfBounds (x y : Int64)
  | unsupported (instruction : Char)
  | endOfInput
  | invalidCharacter (code : Int)
  | cellOverflow
  deriving DecidableEq

inductive StreamError where
  | notUtf8
  | inputFailed
  | outputClosed
  | flushFailed
  | other (text : String)
  deriving DecidableEq, Repr

/-- The channels of a ledger machine that move characters by chance. -/
inductive Channel where
  | input
  | output
  deriving DecidableEq, Repr

/-- A setting or a request that the machine refuses. -/
inductive ConfigError where
  | cellBits (bits : Nat)
  | emptyGrid
  | chance (channel : Channel) (value : Binary64)
  | noPendingDivision (instruction : Char)
  | other (text : String)
  deriving DecidableEq, Repr

/-- Everything that a run can fail with. -/
inductive Error where
  | source (cause : SourceError)
  | selection (cause : SelectionError)
  | fault (cause : Fault)
  | stream (cause : StreamError)
  | config (cause : ConfigError)
  deriving DecidableEq

def BracketSide.missing : BracketSide → String
  | .opening => "close"
  | .closing => "open"

def SourceError.message : SourceError → String
  | .unmatchedBracket index side =>
    let missing := side.missing
    s!"bracket at char {index} doesn't {missing}"
  | .unmatchedLoop index => s!"loop marker at char {index} has no partner"
  | .gridOverflow line column width height =>
    s!"source character at line {line}, column {column} lies outside the {width}x{height} grid"
  | .unbalancedComments opened closed =>
    s!"incorrectly commented source: {opened} '(' but {closed} ')'"
  | .noValidRotation => "incorrectly commented source: no valid rotation exists"
  | .commandTooShort command transaction =>
    s!"command '{command}' too short in transaction '{transaction}'"
  | .unknownRegister register transaction =>
    s!"unsupported register '{register}' in transaction '{transaction}'"
  | .unknownOperator operator transaction =>
    s!"unsupported operation '{operator}' in transaction '{transaction}'"
  | .invalidOperand operand transaction =>
    s!"invalid integer '{operand}' in transaction '{transaction}'"

def SelectionError.message : SelectionError → String
  | .unknownExtension extension => s!"no interpreter available for extension '{extension}'"
  | .ambiguousExtension extension candidates =>
    let names := ", ".intercalate candidates
    s!"multiple interpreters available for extension '{extension}': {names}"
  | .unknownLanguage language => s!"no interpreter available for language '{language}'"

def Fault.message : Fault → String
  | .stackUnderflow instruction => s!"stack underflow executing '{instruction}'"
  | .divisionByZero instruction _ => s!"division by zero executing '{instruction}'"
  | .outOfBounds x y => s!"cell ({x}, {y}) is outside the grid"
  | .unsupported instruction => s!"instruction '{instruction}' is reserved and not supported"
  | .endOfInput => "tried to read past the end of input"
  | .invalidCharacter code => s!"{code} is not a valid character code"
  | .cellOverflow => "cell value overflowed the unbounded cell carrier"

def StreamError.message : StreamError → String
  | .notUtf8 => "input is not valid UTF-8"
  | .inputFailed => "input failed"
  | .outputClosed => "output closed"
  | .flushFailed => "flush failed"
  | .other text => text

def Channel.setting : Channel → String
  | .input => "input_chance"
  | .output => "output_chance"

def ConfigError.message : ConfigError → String
  | .cellBits bits => s!"cell size must be between 1 and 64 bits, got {bits}"
  | .emptyGrid => "grid dimensions must be positive"
  | .chance channel value =>
    let setting := channel.setting
    let text := value.text
    s!"{setting} must lie in [0, 1], got {text}"
  | .noPendingDivision instruction => s!"no pending division at '{instruction}'"
  | .other text => text

def Error.message : Error → String
  | .source cause => cause.message
  | .selection cause => cause.message
  | .fault cause => cause.message
  | .stream cause => "i/o error: " ++ cause.message
  | .config cause => "invalid configuration: " ++ cause.message

end Esolang
