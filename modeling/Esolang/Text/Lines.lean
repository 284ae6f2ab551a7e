/-! Lines of a text. A line ends before a line feed, and a carriage return right before that line
feed belongs to the line's end; a text that ends with a line feed has no empty last line. -/

namespace Esolang

def dropReturn (line : List Char) : List Char :=
  if line.getLast? = some '\r' then line.dropLast else line

/-- The line after the last line feed, which is none when nothing follows it. -/
def lastLine (piece : List Char) : List (List Char) :=
  if piece = [] then [] else [piece]

def lines (text : List Char) : List (List Char) :=
  let pieces := text.splitOn '\n'
  pieces.dropLast.map dropReturn ++ lastLine (pieces.getLastD [])

end Esolang
