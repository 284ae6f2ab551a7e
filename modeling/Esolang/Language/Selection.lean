import Esolang.Error

/-! The choice of a language for a file: by its name if one is given, and else by the extension of
the file name, which has to belong to one language only. -/

namespace Esolang

/-- A language in a table, with whatever builds its machines. -/
structure Entry (β : Type) where
  language : String
  /-- With its dot. -/
  extension : String
  build : β

/-- The last component of a path, unless it leads to a parent. Empty components and single dots at
the end do not count. -/
def fileName? (path : List Char) : Option (List Char) :=
  match ((path.splitOn '/').reverse.dropWhile fun part => part = [] || part = ['.']).head? with
  | some name => if name = ['.', '.'] then none else some name
  | none => none

/-- The part of a file name behind its last dot. A dot that only starts the name does not count. -/
def extensionOf? (name : List Char) : Option (List Char) :=
  match (name.splitOn '.').reverse with
  | [] | [_] | [_, []] => none
  | extension :: _ => some extension

/-- The extension of a path with its dot, empty if there is none. -/
def dottedExtension (path : String) : String :=
  match (fileName? path.toList).bind extensionOf? with
  | some extension => String.ofList ('.' :: extension)
  | none => ""

namespace Entry

variable {β : Type}

def findByName (entries : List (Entry β)) (language : String) :
    Except SelectionError (Entry β) :=
  match entries.find? (·.language = language) with
  | some entry => .ok entry
  | none => .error (.unknownLanguage language)

def findByExtension (entries : List (Entry β)) (extension : String) :
    Except SelectionError (Entry β) :=
  match entries.filter (·.extension = extension) with
  | [] => .error (.unknownExtension extension)
  | [entry] => .ok entry
  | candidates => .error (.ambiguousExtension extension (candidates.map (·.language)))

/-- The entry for a file. A given language goes before the file name. -/
def select (entries : List (Entry β)) (file : String) (language : Option String) :
    Except SelectionError (Entry β) :=
  match language with
  | some language => findByName entries language
  | none => findByExtension entries (dottedExtension file)

def description (entry : Entry β) : String :=
  let language := entry.language
  let extension := entry.extension
  s!"Entry \x7b language: \"{language}\", extension: \"{extension}\", .. \x7d"

end Entry

end Esolang
