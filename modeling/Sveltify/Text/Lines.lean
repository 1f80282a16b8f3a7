import Sveltify.Text.Blank

/-! Lines of a text. A line ends at a line feed; `pieces` keeps every piece between two line feeds,
and `lines` drops the empty piece after a final one and a carriage return at the end of a line. -/

namespace Sveltify.Text

def splitOn (sep : Char) : Text → List Text
  | [] => [[]]
  | c :: s =>
    if c == sep then [] :: splitOn sep s
    else
      match splitOn sep s with
      | [] => [[c]]
      | piece :: rest => (c :: piece) :: rest

def pieces (s : Text) : List Text :=
  splitOn '\n' s

def dropReturn (line : Text) : Text :=
  (dropSuffix? ['\r'] line).getD line

/-- The lines of a text: a final line feed opens no further line, and a carriage return before a
line feed belongs to the line's end. -/
def lines (s : Text) : List Text :=
  let all := pieces s
  match all.getLast? with
  | some [] => all.dropLast.map dropReturn
  | some last => all.dropLast.map dropReturn ++ [last]
  | none => []

def joinWith (sep : Text) : List Text → Text
  | [] => []
  | [s] => s
  | s :: rest => s ++ sep ++ joinWith sep rest

def unlines (parts : List Text) : Text :=
  joinWith ['\n'] parts

end Sveltify.Text
