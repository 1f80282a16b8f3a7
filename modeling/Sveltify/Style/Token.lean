import Sveltify.Style.Scanner

/-! Tokens of normalized style text, each with the number of the line that it ends on. -/

namespace Sveltify.Style

inductive Token where
  | blank
  | «open» (head : Text)
  | close
  | declaration (text : Text)
  | inlineRule (selector body : Text)
deriving DecidableEq, Repr, Inhabited

namespace Token

def splitAtChar (c : Char) : Text → Option (Text × Text)
  | [] => none
  | d :: rest =>
    if d == c then some ([], rest) else (splitAtChar c rest).map fun (a, b) => (d :: a, b)

def inlineRule? (line : Text) : Option Token := do
  let (head, tail) ← splitAtChar '\x7b' line
  let body ← Text.dropSuffix? ['\x7d'] tail
  if body.contains '\x7b' || body.contains '\x7d' then none
  else if (Text.trim head).isEmpty then none
  else some (.inlineRule (Text.trim head) (Text.trim body))

def declarations (s : Text) : List Token :=
  (splitDeclarations s).map .declaration

def ofBraces (piece : Text) : List (Bool × Text) → List Token
  | [] => declarations piece
  | (true, next) :: rest => .open (Text.trim piece) :: ofBraces next rest
  | (false, next) :: rest => declarations piece ++ .close :: ofBraces next rest

def ofLine (line : Text) : List Token :=
  let line := Text.trim line
  if line.isEmpty then [.blank]
  else
    match inlineRule? line with
    | some token => [token]
    | none =>
      let (piece, rest) := Scanner.splitBraces {} line
      ofBraces piece rest

/-- A line that goes on in the next one: it ends with a comma and has no braces. -/
def continues (line : Text) : Bool :=
  line.getLast? == some ',' && !line.contains '\x7b' && !line.contains '\x7d'

def numbered (n : Nat) (tokens : List Token) : List (Nat × Token) :=
  tokens.map (n, ·)

def held (pending : List Text) : Token :=
  .declaration (Text.joinWith [' '] pending)

/-- The tokens of the lines from number `n` on, where `pending` holds the lines before them that go
on: a blank line or a closing brace ends these as a declaration, and any other line joins them. -/
def ofLines (pending : List Text) (n : Nat) : List Text → List (Nat × Token)
  | [] => if pending.isEmpty then [] else [(n - 1, held pending)]
  | raw :: rest =>
    let line := Text.trim raw
    if continues line then ofLines (pending ++ [line]) (n + 1) rest
    else if pending.isEmpty then numbered n (ofLine line) ++ ofLines [] (n + 1) rest
    else if line.isEmpty || line.head? == some '\x7d' then
      (n, held pending) :: numbered n (ofLine line) ++ ofLines [] (n + 1) rest
    else
      numbered n (ofLine (Text.joinWith [' '] pending ++ ' ' :: line)) ++ ofLines [] (n + 1) rest

def tokenize (s : Text) : List (Nat × Token) :=
  ofLines [] 1 (Text.lines s)

end Token

end Sveltify.Style
