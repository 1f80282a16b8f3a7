import Sveltify.Text.Lines

/-! Layout of generated code: shifting continuation lines, dropping superfluous blank lines,
and indenting a block by one level. -/

namespace Sveltify.Text

def reindentLine (strip : Nat) (lead line : Text) : Text :=
  if isBlankText line then []
  else
    let margin := (line.takeWhile isIndent).length
    lead ++ line.drop (min margin strip)

def reindent (s : Text) (strip : Nat) (lead : Text) : Text :=
  match pieces s with
  | [] => []
  | first :: rest => unlines (first :: rest.map (reindentLine strip lead))

def opensBlock (line : Text) : Bool :=
  match (trimEnd line).getLast? with
  | none => true
  | some c => c == '\x7b' || c == '('

def closesBlock (line : Text) : Bool :=
  match (trimStart line).head? with
  | none => false
  | some c => c == '\x7d' || c == ')'

def tidyLines (last : Option Text) : List Text → List Text
  | [] => []
  | line :: rest =>
    if isBlankText line then
      let afterOpener := last.all opensBlock
      let beforeCloser := (rest.find? (!isBlankText ·)).any closesBlock
      if afterOpener || beforeCloser then tidyLines last rest
      else [] :: tidyLines (some []) rest
    else line :: tidyLines (some line) rest

/-- Drops blank lines after a block opener or before a block closer and collapses runs of blank
lines into one. -/
def tidyBlankLines (s : Text) : Text :=
  unlines (tidyLines none (pieces s))

def indentLine (line : Text) : Text :=
  if isBlankText line then [] else ' ' :: ' ' :: line

def indent (s : Text) : Text :=
  unlines ((pieces s).map indentLine)

end Sveltify.Text
