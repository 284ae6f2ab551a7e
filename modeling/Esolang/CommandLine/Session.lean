import Esolang.CommandLine.FileTree
import Esolang.CommandLine.Options
import Esolang.CommandLine.Process

/-! What a command does: it shows help or the languages, or runs one program after another between
the standard streams. All files are given a language before the first one is opened, and the first
program that fails ends the session. -/

namespace Esolang.CommandLine

structure Outcome where
  /-- The exit code, unless a program is still running. -/
  exit : Option Nat
  stdout : List UInt8 := []
  stderr : String := ""
  deriving DecidableEq

/-- A word for each place among the programs. A number stands for the same word at all places. -/
structure Entropy where
  word : Nat → UInt64

instance (n : Nat) : OfNat Entropy n := ⟨⟨fun _ => .ofNat n⟩⟩

structure Surroundings where
  read : String → Except ReadError (List UInt8)
  stdin : List UInt8
  /-- Seeds the machines that are given no seed. -/
  entropy : Entropy
  /-- What becomes of the input flow of the program at each place. -/
  flow : Nat → Flow := fun _ => .prompt (stdin.length + 1)

def helpText : String :=
  "\n".intercalate
    ["Run esoteric programming language source files",
      "",
      "Usage: esorun [OPTIONS] [FILES]...",
      "",
      "Arguments:",
      "  [FILES]...  Source files to run, one after another",
      "",
      "Options:",
      "  -L, --list                     List all available languages",
      "  -l, --lang <LANG>              Interpret the given file(s) in this language instead of going by extension",
      "      --step-limit <STEP_LIMIT>  Stop each program after this many steps",
      "      --seed <SEED>              Random seed for reproducibility",
      "      --cell-bits <CELL_BITS>    Brainfuck cell width in bits [default: 8]",
      "      --unbounded-cells          Brainfuck cells never wrap",
      "      --strict                   Monkeys: drop lines that carry a trailing comment",
      "      --truncate-grid            Befunge: drop source outside the 80x25 grid instead of failing",
      "      --zero-on-underflow        Befunge: popping an empty stack yields 0",
      "  -h, --help                     Print help",
      ""]

def listText : String :=
  let rows := Language.all.map fun language =>
    let name := language.name
    let extension := language.extension
    s!"  - {name} ({extension})\n"
  "Available languages:\n" ++ String.join rows

def Outcome.show (text : String) : Outcome := { exit := some 0, stdout := encodeText text.toList }

def exitCode : Error → Nat
  | .config _ | .selection _ => 1
  | .source _ => 3
  | .fault _ | .stream _ => 4

structure Job where
  file : String
  language : Language
  deriving DecidableEq, Repr

def jobsOf (language : Option String) (files : List String) : Except SelectionError (List Job) :=
  files.mapM fun file =>
    match Entry.select Language.entries file language with
    | .ok entry => .ok { file, language := entry.build }
    | .error e => .error e

def Surroundings.readText (s : Surroundings) (file : String) : Except ReadError String :=
  match s.read file with
  | .error e => .error e
  | .ok bytes =>
    match String.fromUTF8? bytes.toByteArray with
    | some text => .ok text
    | none => .error .notUtf8

def Outcome.failure (code : Nat) (stdout : Sink) (file message : String) : Outcome :=
  { exit := some code, stdout := stdout.bytes, stderr := s!"{file}: {message}\n" }

/-- Runs programs one after another, the first of them at the given place, each with as many steps as the
fuel allows. -/
def runJobs (surroundings : Surroundings) (settings : Settings) (limits : Limits Process)
    (fuel : Nat) : (place : Nat) → List Job → (stdin : List UInt8) → (stdout : Sink) → Outcome
  | _, [], _, stdout => { exit := some 0, stdout := stdout.bytes }
  | place, job :: jobs, stdin, stdout =>
    match surroundings.readText job.file with
    | .error e => .failure 2 stdout job.file e.message
    | .ok source =>
      let entropy := surroundings.entropy.word place
      match Machine.new job.language settings entropy { bytes := stdin } stdout with
      | .error e => .failure (exitCode e) stdout job.file e.message
      | .ok machine =>
        let flow := surroundings.flow place
        match (Process.interpreter flow).runWithin limits fuel source { machine } with
        | (none, p) => { exit := none, stdout := p.machine.sink.bytes }
        | (some (.error e), p) => .failure (exitCode e) p.machine.sink job.file e.message
        | (some (.ok _), p) =>
          runJobs surroundings settings limits fuel (place + 1) jobs (p.leaves flow stdin)
            p.machine.sink

def useOptions (surroundings : Surroundings) (fuel : Nat) (o : Options) : Outcome :=
  if o.has .list then .show listText
  else if o.files.isEmpty then .show helpText
  else
    match jobsOf o.language o.files with
    | .error e =>
      { exit := some 1
        stderr := e.message ++ "\nPlease specify a language using --lang.\n" }
    | .ok jobs =>
      runJobs surroundings o.settings { stepLimit := o.stepLimit } fuel 0 jobs surroundings.stdin {}

/-- What a command with the given arguments does, as far as the fuel allows. -/
def session (surroundings : Surroundings) (fuel : Nat) (arguments : List String) : Outcome :=
  match parse arguments with
  | .error e => { exit := some 2, stderr := "error: " ++ e.message ++ "\n" }
  | .ok .help => .show helpText
  | .ok (.use o) => useOptions surroundings fuel o

end Esolang.CommandLine
