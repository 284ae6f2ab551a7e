import Esolang.Language.Basic
import Esolang.Text.Decimal

/-! Reading the arguments of the command line. Options and files come in any order; an option has a
long or a short name, takes a value or none, and may be given once. -/

namespace Esolang.CommandLine

inductive Flag where
  | list
  | unboundedCells
  | strict
  | truncateGrid
  | zeroOnUnderflow
  deriving DecidableEq, Repr

inductive Parameter where
  | language
  | stepLimit
  | seed
  | cellBits
  deriving DecidableEq, Repr

inductive OptionName where
  | help
  | flag (flag : Flag)
  | parameter (parameter : Parameter)
  deriving DecidableEq, Repr

inductive UsageError where
  | unknown (argument : String)
  | unexpectedValue (argument : String)
  | missingValue (parameter : Parameter)
  | invalidValue (parameter : Parameter) (value : String)
  | repeated (option : OptionName)
  | conflict (first second : OptionName)
  deriving DecidableEq, Repr

structure Options where
  files : List String := []
  flags : List Flag := []
  language : Option String := none
  stepLimit : Option Nat := none
  seed : Option UInt64 := none
  cellBits : Option Nat := none
  deriving DecidableEq, Repr

inductive Request where
  | help
  | use (options : Options)
  deriving DecidableEq, Repr

def Flag.longName : Flag → String
  | list => "list"
  | unboundedCells => "unbounded-cells"
  | strict => "strict"
  | truncateGrid => "truncate-grid"
  | zeroOnUnderflow => "zero-on-underflow"

def Parameter.longName : Parameter → String
  | language => "lang"
  | stepLimit => "step-limit"
  | seed => "seed"
  | cellBits => "cell-bits"

namespace OptionName

def longName : OptionName → String
  | help => "help"
  | flag f => f.longName
  | parameter p => p.longName

def all : List OptionName :=
  [help, flag .list, flag .unboundedCells, flag .strict, flag .truncateGrid, flag .zeroOnUnderflow,
    parameter .language, parameter .stepLimit, parameter .seed, parameter .cellBits]

def ofLong? (name : List Char) : Option OptionName := all.find? (·.longName.toList = name)

def ofShort? : Char → Option OptionName
  | 'h' => some help
  | 'L' => some (flag .list)
  | 'l' => some (parameter .language)
  | _ => none

end OptionName

def UsageError.message : UsageError → String
  | .unknown argument => s!"unexpected argument '{argument}' found"
  | .unexpectedValue argument => s!"unexpected value in '{argument}'"
  | .missingValue p =>
    let name := p.longName
    s!"a value is required for '--{name}' but none was supplied"
  | .invalidValue p value =>
    let name := p.longName
    s!"invalid value '{value}' for '--{name}'"
  | .repeated option =>
    let name := option.longName
    s!"the argument '--{name}' cannot be used multiple times"
  | .conflict a b =>
    let first := a.longName
    let second := b.longName
    s!"the argument '--{first}' cannot be used with '--{second}'"

/-- A number that fits in 32 bits without sign; a minus sign before zero is allowed. -/
def word32? (text : List Char) : Option Nat :=
  match Decimal.integer? text with
  | some value => if 0 ≤ value ∧ value < UInt32.size then some value.toNat else none
  | none => none

/-- A number that fits in 64 bits without sign. -/
def word64? (text : List Char) : Option Nat := Decimal.naturalBelow? UInt64.size text

namespace Options

def has (o : Options) (f : Flag) : Bool := o.flags.contains f

def addFile (file : String) (o : Options) : Options := { o with files := o.files ++ [file] }

def raise (f : Flag) (o : Options) : Except UsageError Options :=
  if o.has f then .error (.repeated (.flag f)) else .ok { o with flags := f :: o.flags }

def assigned (o : Options) : Parameter → Bool
  | .language => o.language.isSome
  | .stepLimit => o.stepLimit.isSome
  | .seed => o.seed.isSome
  | .cellBits => o.cellBits.isSome

/-- The options with a value for a parameter, if the value can be read. -/
def withValue? (p : Parameter) (value : List Char) (o : Options) : Option Options :=
  match p with
  | .language => some { o with language := some (String.ofList value) }
  | .stepLimit => (word64? value).map fun n => { o with stepLimit := some n }
  | .seed => (word64? value).map fun n => { o with seed := some (.ofNat n) }
  | .cellBits => (word32? value).map fun n => { o with cellBits := some n }

def assign (p : Parameter) (value : List Char) (o : Options) : Except UsageError Options :=
  if o.assigned p then .error (.repeated (.parameter p))
  else
    match o.withValue? p value with
    | some o => .ok o
    | none => .error (.invalidValue p (String.ofList value))

end Options

inductive Reading where
  | help
  /-- An option with a value may be waiting for the next argument. -/
  | going (options : Options) (waiting : Option Parameter)

/-- Reads an argument that starts with two dashes: a name, and a value behind an equals sign. -/
def readLong (o : Options) (text : List Char) : Except UsageError Reading :=
  let name := text.takeWhile (· ≠ '=')
  let value := (text.dropWhile (· ≠ '=')).tail?
  let argument := String.ofList ('-' :: '-' :: text)
  match OptionName.ofLong? name, value with
  | none, _ => .error (.unknown argument)
  | some .help, none => .ok .help
  | some (.flag f), none => (o.raise f).map (.going · none)
  | some (.parameter p), none => .ok (.going o (some p))
  | some (.parameter p), some value => (o.assign p value).map (.going · none)
  | some _, some _ => .error (.unexpectedValue argument)

/-- Reads the letters of an argument that starts with one dash. The value of an option is the rest
of the letters, without an equals sign in front, or else the next argument. -/
def readShort (o : Options) : List Char → Except UsageError Reading
  | [] => .ok (.going o none)
  | letter :: rest =>
    match OptionName.ofShort? letter with
    | none => .error (.unknown (String.ofList ['-', letter]))
    | some .help => .ok .help
    | some (.flag f) =>
      match o.raise f with
      | .error e => .error e
      | .ok o => readShort o rest
    | some (.parameter p) =>
      match rest with
      | [] => .ok (.going o (some p))
      | '=' :: value => (o.assign p value).map (.going · none)
      | value => (o.assign p value).map (.going · none)

def readArgument (o : Options) (argument : String) : Except UsageError Reading :=
  match argument.toList with
  | '-' :: '-' :: text => readLong o text
  | '-' :: letter :: letters => readShort o (letter :: letters)
  | _ => .ok (.going (o.addFile argument) none)

/-- Whether an argument cannot be the value of the option before it. A lone dash can. -/
def startsOption (argument : String) : Bool :=
  match argument.toList with
  | '-' :: _ :: _ => true
  | _ => false

def complete (o : Options) : Except UsageError Request :=
  if o.cellBits.isSome ∧ o.has .unboundedCells then
    .error (.conflict (.parameter .cellBits) (.flag .unboundedCells))
  else
    .ok (.use o)

/-- Reads the arguments from left to right. Help is given as soon as it is asked for; behind two
dashes there are only files. -/
def readArguments (o : Options) (waiting : Option Parameter) :
    List String → Except UsageError Request
  | [] =>
    match waiting with
    | some p => .error (.missingValue p)
    | none => complete o
  | argument :: rest =>
    match waiting with
    | some p =>
      if startsOption argument then .error (.missingValue p)
      else
        match o.assign p argument.toList with
        | .error e => .error e
        | .ok o => readArguments o none rest
    | none =>
      if argument = "--" then complete (rest.foldl (fun o file => o.addFile file) o)
      else
        match readArgument o argument with
        | .error e => .error e
        | .ok .help => .ok .help
        | .ok (.going o waiting) => readArguments o waiting rest

def parse (arguments : List String) : Except UsageError Request := readArguments {} none arguments

def Options.settings (o : Options) : Settings :=
  let settings : Settings :=
    { tape := { cellBits := if o.has .unboundedCells then none else some (o.cellBits.getD 8) }
      grid :=
        { overflow := if o.has .truncateGrid then .truncate else .reject
          underflow := if o.has .zeroOnUnderflow then .zero else .fault }
      troop := { strict := o.has .strict } }
  match o.seed with
  | some seed => settings.withSeed seed
  | none => settings

end Esolang.CommandLine
