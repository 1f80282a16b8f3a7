import Sveltify.Script.Cursor

/-! Quoted literals: strings and the text pieces of templates. -/

namespace Sveltify.Script.Literal

def joinSurrogates : List Nat → Text
  | [] => []
  | [n] => [if 0xD800 ≤ n && n ≤ 0xDFFF then '\ufffd' else Char.ofNat n]
  | high :: low :: rest =>
    if 0xD800 ≤ high && high ≤ 0xDBFF && 0xDC00 ≤ low && low ≤ 0xDFFF then
      Char.ofNat (0x10000 + (high - 0xD800) * 0x400 + (low - 0xDC00)) :: joinSurrogates rest
    else if 0xD800 ≤ high && high ≤ 0xDFFF then '\ufffd' :: joinSurrogates (low :: rest)
    else Char.ofNat high :: joinSurrogates (low :: rest)

inductive StringPart where
  | plain
  | escape
  | carriage
  | hex (left value : Nat)
  | unicode
  | braced (value : Option Nat)
  | octal (value count : Nat)
  | closed
deriving DecidableEq

def bracedPoint? (value : Option Nat) : Option Nat :=
  value.filter (· ≤ 0x10FFFF)

structure StringScan where
  part : StringPart := .plain
  points : List Nat := []
  faulty : Bool := false

namespace StringScan

def push (r : StringScan) (point : Nat) : StringScan :=
  { r with part := .plain, points := point :: r.points }

def stepPlain (quote : Char) (r : StringScan) (c : Char) : Option StringScan :=
  if c == quote then some { r with part := .closed }
  else if c == '\\' then some { r with part := .escape }
  else if c == '\n' || c == '\r' then none
  else some (r.push c.toNat)

def stepEscape (r : StringScan) (c : Char) : StringScan :=
  match c with
  | 'n' => r.push 10
  | 'r' => r.push 13
  | 't' => r.push 9
  | 'b' => r.push 8
  | 'v' => r.push 11
  | 'f' => r.push 12
  | 'x' => { r with part := .hex 2 0 }
  | 'u' => { r with part := .unicode }
  | '\r' => { r with part := .carriage }
  | '0' => { r with part := .octal 0 1 }
  | _ =>
    if isLineEnd c then { r with part := .plain }
    else if '1' ≤ c && c ≤ '7' then { r with part := .octal (c.toNat - 48) 1, faulty := true }
    else r.push c.toNat

def step (quote : Char) (r : StringScan) (c : Char) : Option StringScan :=
  match r.part with
  | .closed => none
  | .plain => stepPlain quote r c
  | .escape => some (stepEscape r c)
  | .carriage =>
    if c == '\n' then some { r with part := .plain }
    else stepPlain quote { r with part := .plain } c
  | .hex left value =>
    (Text.hexDigit? c).map fun d =>
      if left ≤ 1 then r.push (value * 16 + d)
      else { r with part := .hex (left - 1) (value * 16 + d) }
  | .unicode =>
    if c == '\x7b' then some { r with part := .braced none }
    else (Text.hexDigit? c).map fun d => { r with part := .hex 3 d }
  | .braced value =>
    if c == '\x7d' then (bracedPoint? value).map r.push
    else (Text.hexDigit? c).map fun d => { r with part := .braced (some (value.getD 0 * 16 + d)) }
  | .octal value count =>
    if '0' ≤ c && c ≤ '7' && count < 3 && value * 8 + (c.toNat - 48) ≤ 255 then
      some { r with part := .octal (value * 8 + (c.toNat - 48)) (count + 1), faulty := true }
    else stepPlain quote (r.push value) c

/-- The string is read to its end, which is the end of a line or of the script where its closing
quote is missing. -/
def isComplete (r : StringScan) : Bool :=
  match r.part with
  | .plain | .carriage | .octal _ _ | .closed => true
  | _ => false

def value (r : StringScan) : Text :=
  let points := match r.part with
    | .octal value _ => value :: r.points
    | _ => r.points
  joinSurrogates points.reverse

end StringScan

inductive PiecePart where
  | plain
  | dollar
  | escape
  | zero
  | hex (left : Nat)
  | unicode
  | braced (value : Option Nat)
  | ended
  | opened
deriving DecidableEq

structure PieceScan where
  part : PiecePart := .plain
  raw : Text := []
  faulty : Bool := false

namespace PieceScan

def push (r : PieceScan) (part : PiecePart) (c : Char) : PieceScan :=
  { r with part, raw := c :: r.raw }

def stepPlain (r : PieceScan) (c : Char) : PieceScan :=
  if c.toNat == 96 then { r with part := .ended }
  else if c == '$' then { r with part := .dollar }
  else if c == '\\' then r.push .escape c
  else r.push .plain c

def step (r : PieceScan) (c : Char) : Option PieceScan :=
  match r.part with
  | .ended | .opened => none
  | .plain => some (stepPlain r c)
  | .dollar =>
    if c == '\x7b' then some { r with part := .opened } else some (stepPlain (r.push .plain '$') c)
  | .escape =>
    match c with
    | 'x' => some (r.push (.hex 2) c)
    | 'u' => some (r.push .unicode c)
    | '0' => some (r.push .zero c)
    | _ => some { r.push .plain c with faulty := r.faulty || ('1' ≤ c && c ≤ '7') }
  | .zero => some (stepPlain { r with faulty := r.faulty || ('0' ≤ c && c ≤ '7') } c)
  | .hex left =>
    if (Text.hexDigit? c).isSome then some (r.push (if left ≤ 1 then .plain else .hex (left - 1)) c)
    else some (stepPlain { r with faulty := true } c)
  | .unicode =>
    if c == '\x7b' then some (r.push (.braced none) c)
    else if (Text.hexDigit? c).isSome then some (r.push (.hex 3) c)
    else some (stepPlain { r with faulty := true } c)
  | .braced value =>
    match Text.hexDigit? c with
    | some d => some (r.push (.braced (some (value.getD 0 * 16 + d))) c)
    | none =>
      if c == '\x7d' && (bracedPoint? value).isSome then some (r.push .plain c)
      else some (stepPlain { r with faulty := true } c)

end PieceScan

end Sveltify.Script.Literal
