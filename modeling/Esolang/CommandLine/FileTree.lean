/-! The files that a command can read, below a working directory. -/

namespace Esolang.CommandLine

inductive ReadError where
  | notFound
  | isDirectory
  | notDirectory
  | notUtf8
  | other (text : String)
  deriving DecidableEq, Repr

def ReadError.message : ReadError → String
  | notFound => "No such file or directory (os error 2)"
  | isDirectory => "Is a directory (os error 21)"
  | notDirectory => "Not a directory (os error 20)"
  | notUtf8 => "stream did not contain valid UTF-8"
  | other text => text

/-- A path from the working directory, the last component first. -/
abbrev Path := List (List Char)

/-- Files and directories, with all directories on the way to them. -/
structure FileTree where
  files : List (Path × List UInt8)
  directories : List Path

namespace FileTree

/-- The components of a path that lead somewhere, the last one first. -/
def pathOf (path : String) : Path :=
  ((path.toList.splitOn '/').filter fun part => part ≠ [] && part ≠ ['.']).reverse

def ofPaths (files : List (String × List UInt8)) (directories : List String) : FileTree :=
  { files := files.map fun (path, bytes) => (pathOf path, bytes)
    directories := directories.map pathOf }

/-- Whether a path is that of a directory: of the working directory, of one of the tree, or of one
on the way to something in the tree. -/
def isDirectory (t : FileTree) (path : Path) : Bool :=
  path.isEmpty || t.directories.any (path.isSuffixOf ·) ||
    t.files.any fun file => path.isSuffixOf file.1.tail

def file? (t : FileTree) (path : Path) : Option (List UInt8) :=
  (t.files.find? (·.1 = path)).map (·.2)

def follow (t : FileTree) (path : Path) (part : List Char) : Except ReadError Path :=
  if t.isDirectory path then
    if part = [] ∨ part = ['.'] then .ok path
    else if part = ['.', '.'] then .ok path.tail
    else .ok (part :: path)
  else if (t.file? path).isSome then .error .notDirectory
  else .error .notFound

/-- The bytes of a file. Every component before the last one has to lead to a directory. -/
def read (t : FileTree) (path : String) : Except ReadError (List UInt8) :=
  match path.toList with
  | [] | '/' :: _ => .error .notFound
  | path =>
    match (path.splitOn '/').foldlM t.follow [] with
    | .error e => .error e
    | .ok place =>
      if t.isDirectory place then .error .isDirectory
      else
        match t.file? place with
        | some bytes => .ok bytes
        | none => .error .notFound

end FileTree

end Esolang.CommandLine
