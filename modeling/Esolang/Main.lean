import Esolang.CommandLine.Session

/-! The command line. It reads the files and the standard input that a session may need, and writes
what the session has written, with more and more fuel until the session ends. -/

namespace Esolang.CommandLine

def readErrorOf (e : IO.Error) : ReadError :=
  match e with
  | .noFileOrDirectory .. => .notFound
  | .inappropriateType _ code _ => if code = 21 then .isDirectory else .notDirectory
  | e => .other (toString e)

def readFile (file : String) : IO (String × Except ReadError (List UInt8)) := do
  try
    let bytes ← IO.FS.readBinFile file
    return (file, .ok bytes.toList)
  catch e =>
    return (file, .error (readErrorOf e))

def readFiles (arguments : List String) : IO (List (String × Except ReadError (List UInt8))) :=
  match parse arguments with
  | .ok (.use o) => o.files.mapM readFile
  | _ => return []

def lookUp (contents : List (String × Except ReadError (List UInt8))) (file : String) :
    Except ReadError (List UInt8) :=
  match contents.lookup file with
  | some content => content
  | none => .error .notFound

def randomWord : IO UInt64 := do
  let bytes ← IO.getRandomBytes 8
  return bytes.toList.foldl (fun word byte => (word <<< 8) ||| byte.toUInt64) 0

def randomWords (count : Nat) : IO Entropy := do
  let words ← (Array.range count).mapM fun _ => randomWord
  return { word := fun place => words.getD place 0 }

/-- Runs a session with some fuel, writes what has not yet been written, and goes on with twice the
fuel if a program is still running. -/
partial def runSession (surroundings : Surroundings) (arguments : List String)
    (fuel written : Nat) : IO UInt32 := do
  let outcome := session surroundings fuel arguments
  let stdout ← IO.getStdout
  stdout.write (outcome.stdout.drop written).toByteArray
  stdout.flush
  match outcome.exit with
  | some code =>
    (← IO.getStderr).putStr outcome.stderr
    return code.toUInt32
  | none => runSession surroundings arguments (2 * fuel) outcome.stdout.length

end Esolang.CommandLine

open Esolang.CommandLine in
def main (arguments : List String) : IO UInt32 := do
  let contents ← readFiles arguments
  let stdin ← (← IO.getStdin).readBinToEnd
  let entropy ← randomWords arguments.length
  runSession { read := lookUp contents, stdin := stdin.toList, entropy } arguments 65536 0
