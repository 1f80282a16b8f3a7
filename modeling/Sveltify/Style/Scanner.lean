import Sveltify.Text.Lines

/-! Splitting style text at characters outside of quotes, parentheses and brackets. -/

namespace Sveltify.Style

structure Scanner where
  depth : Nat := 0
  quote : Option Char := none
deriving DecidableEq, Repr, Inhabited

namespace Scanner

def atTop (s : Scanner) : Bool :=
  s.depth == 0 && s.quote.isNone

/-- The nesting after one more character. A closing bracket at depth 0 changes nothing. -/
def advance (s : Scanner) (c : Char) : Scanner :=
  match s.quote with
  | some q => if c == q then { s with quote := none } else s
  | none =>
    if c == '"' || c == '\'' then { s with quote := some c }
    else if c == '(' || c == '[' then { s with depth := s.depth + 1 }
    else if c == ')' || c == ']' then { s with depth := s.depth - 1 }
    else s

def splitTop (sep : Char) (s : Scanner) : Text → List Text
  | [] => [[]]
  | c :: rest =>
    if c == sep && s.atTop then [] :: splitTop sep s rest
    else
      match splitTop sep (s.advance c) rest with
      | [] => [[c]]
      | piece :: others => (c :: piece) :: others

/-- The text before the first brace at top level, and each such brace with the text up to the
next; an opening brace is marked `true`. -/
def splitBraces (s : Scanner) : Text → Text × List (Bool × Text)
  | [] => ([], [])
  | c :: rest =>
    if (c == '\x7b' || c == '\x7d') && s.atTop then
      let (piece, others) := splitBraces s rest
      ([], (c == '\x7b', piece) :: others)
    else
      let (piece, others) := splitBraces (s.advance c) rest
      (c :: piece, others)

end Scanner

/-- The declarations of pieces that a semicolon ends, all but the last piece: trimmed, with their
semicolon, and a lone semicolon dropped. -/
def declarationsOf : List Text → List Text
  | [] => []
  | [last] => if (Text.trim last).isEmpty then [] else [Text.trim last]
  | piece :: rest =>
    let declaration := Text.trim (piece ++ [';'])
    if declaration == [';'] then declarationsOf rest else declaration :: declarationsOf rest

def splitDeclarations (s : Text) : List Text :=
  declarationsOf (Scanner.splitTop ';' {} s)

def splitSelectors (s : Text) : List Text :=
  ((Scanner.splitTop ',' {} s).map Text.trim).filter (!·.isEmpty)

end Sveltify.Style
