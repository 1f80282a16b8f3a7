import Sveltify.Text.Digit

/-! Places in a script. A cursor holds what is left to read and the byte offset at which it starts;
`scan` moves a cursor over the characters that an automaton takes. -/

namespace Sveltify.Script

structure Cursor where
  rest : Text
  offset : Nat
deriving Inhabited

namespace Cursor

def ofText (text : Text) : Cursor :=
  ⟨text, 0⟩

def advance (n : Nat) (cursor : Cursor) : Cursor :=
  ⟨cursor.rest.drop n, cursor.offset + Text.byteSize (cursor.rest.take n)⟩

def scanFrom {σ : Type} (step : σ → Char → Option σ) : σ → Nat → Text → σ × Cursor
  | s, offset, [] => (s, ⟨[], offset⟩)
  | s, offset, c :: rest =>
    match step s c with
    | some next => scanFrom step next (offset + c.utf8Size) rest
    | none => (s, ⟨c :: rest, offset⟩)

def scan {σ : Type} (step : σ → Char → Option σ) (s : σ) (cursor : Cursor) : σ × Cursor :=
  scanFrom step s cursor.offset cursor.rest

end Cursor

def isLineEnd (c : Char) : Bool :=
  c == '\n' || c == '\r' || c.toNat == 0x2028 || c.toNat == 0x2029

def isSpace (c : Char) : Bool :=
  let n := c.toNat
  n == 0x09 || n == 0x0B || n == 0x0C || n == 0x20 || n == 0x85 || n == 0xA0 || n == 0xFEFF ||
    n == 0x1680 || (0x2000 ≤ n && n ≤ 0x200B) || n == 0x202F || n == 0x205F || n == 0x3000

inductive Trivia.Place where
  | open
  | lineComment
  | blockComment
deriving DecidableEq

/-- What stands between two tokens: where it stops, whether a line ends in it, and whether a comment
of it is open or is written as in markup, which a module forbids. -/
structure Trivia where
  stop : Cursor
  newline : Bool
  faulty : Bool

namespace Trivia

/-- Skips blanks and comments. An arrow of two dashes starts a comment only where a line starts. -/
def skipFrom : Place → (newline faulty : Bool) → (offset : Nat) → Text → Trivia
  | place, newline, faulty, offset, [] =>
    ⟨⟨[], offset⟩, newline, faulty || place == .blockComment⟩
  | .open, newline, faulty, offset, '/' :: '/' :: rest =>
    skipFrom .lineComment newline faulty (offset + 2) rest
  | .open, newline, faulty, offset, '/' :: '*' :: rest =>
    skipFrom .blockComment newline faulty (offset + 2) rest
  | .open, newline, _, offset, '<' :: '!' :: '-' :: '-' :: rest =>
    skipFrom .lineComment newline true (offset + 4) rest
  | .open, true, _, offset, '-' :: '-' :: '>' :: rest =>
    skipFrom .lineComment true true (offset + 3) rest
  | .blockComment, newline, faulty, offset, '*' :: '/' :: rest =>
    skipFrom .open newline faulty (offset + 2) rest
  | .open, newline, faulty, offset, c :: rest =>
    if isLineEnd c then skipFrom .open true faulty (offset + c.utf8Size) rest
    else if isSpace c then skipFrom .open newline faulty (offset + c.utf8Size) rest
    else ⟨⟨c :: rest, offset⟩, newline, faulty⟩
  | .lineComment, newline, faulty, offset, c :: rest =>
    if isLineEnd c then skipFrom .open true faulty (offset + c.utf8Size) rest
    else skipFrom .lineComment newline faulty (offset + c.utf8Size) rest
  | .blockComment, newline, faulty, offset, c :: rest =>
    skipFrom .blockComment (newline || isLineEnd c) faulty (offset + c.utf8Size) rest

def skip (cursor : Cursor) (newline : Bool) : Trivia :=
  skipFrom .open newline false cursor.offset cursor.rest

end Trivia

end Sveltify.Script
