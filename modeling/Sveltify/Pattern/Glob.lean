import Sveltify.Text.Blank

/-! Patterns of paths. A pattern is matched byte by byte: a question mark stands for one byte, a
star for any number of bytes, and two stars that make up a component for any number of
components. -/

namespace Sveltify.Pattern.Glob

inductive Token where
  | literal (c : Char)
  | any
  | many
  | leading
  | trailing
  | between
  | oneOf (negated : Bool) (ranges : List (UInt8 × UInt8))
  | alternatives (branches : List (List Token))
deriving Inhabited

def bytesOf (c : Char) : List UInt8 :=
  String.utf8EncodeChar c

def bytes (text : Text) : List UInt8 :=
  text.flatMap bytesOf

/-- A range of characters as ranges of bytes: the last byte of the one and the first byte of the
other are the bounds. None if the bounds are in the wrong order. -/
def byteRanges? (low high : Char) : Option (List (UInt8 × UInt8)) :=
  if low == high then some ((bytesOf low).map fun b => (b, b))
  else
    match (bytesOf low).reverse, bytesOf high with
    | last :: before, first :: after =>
      if first < last then none
      else some (before.reverse.map (fun b => (b, b)) ++ (last, first) :: after.map fun b => (b, b))
    | _, _ => none

/-! Reading -/

/-- A set of characters while it is read: its ranges with the last one first, and whether a dash
waits for the end of a range. -/
structure SetScan where
  first : Bool := true
  dash : Bool := false
  ranges : List (Char × Char) := []

def SetScan.close? (s : SetScan) (c : Char) : Option SetScan :=
  match s.ranges with
  | (low, _) :: rest =>
    if c < low then none else some { first := false, dash := false, ranges := (low, c) :: rest }
  | [] => none

def SetScan.push (s : SetScan) (c : Char) : SetScan :=
  { first := false, dash := false, ranges := (c, c) :: s.ranges }

/-- Reads a set up to its bracket. A bracket or a dash that comes first stands for itself. -/
def readSet? : SetScan → Text → Option (List (Char × Char) × Text)
  | _, [] => none
  | s, c :: rest =>
    if c == ']' && !s.first then
      let ranges := if s.dash then ('-', '-') :: s.ranges else s.ranges
      some (ranges.reverse, rest)
    else if c == '-' && !s.first && !s.dash then readSet? { s with dash := true } rest
    else if s.dash then (s.close? c).bind fun s => readSet? s rest
    else readSet? (s.push c) rest

def readClass? (text : Text) : Option (Token × Text) := do
  let (negated, body) := match text with
    | '!' :: rest => (true, rest)
    | '^' :: rest => (true, rest)
    | _ => (false, text)
  let (ranges, rest) ← readSet? {} body
  let ranges ← ranges.mapM fun (low, high) => byteRanges? low high
  return (.oneOf negated ranges.flatten, rest)

/-- A pattern while it is read: the tokens of the current branch with the last one first, and for
every alternation around it the tokens before it and its finished branches, the last one first. -/
structure Scan where
  tokens : List Token := []
  around : List (List Token × List (List Token)) := []
  before : Option Char := none

namespace Scan

def push (s : Scan) (tokens : List Token) (before : Char) : Scan :=
  { s with tokens := tokens.reverse ++ s.tokens, before := some before }

def stars (s : Scan) (rest : Text) : Scan × Text :=
  let plain := (s.push [.many, .many] '*', rest)
  let apart := s.before == some '/' ||
    (!s.around.isEmpty && (s.before == some ',' || s.before == some '\x7b'))
  match s.tokens with
  | [] =>
    match rest with
    | [] => (s.push [.leading] '*', [])
    | '/' :: rest => (s.push [.leading] '/', rest)
    | _ => plain
  | last :: earlier =>
    if !apart then plain
    else
      let replace := fun (token : Token) (before : Char) =>
        let kept := match last with
          | .leading => Token.leading
          | .trailing => .trailing
          | _ => token
        { s with tokens := kept :: earlier, before := some before }
      match rest with
      | [] => (replace .trailing '*', [])
      | '/' :: rest => (replace .between '/', rest)
      | c :: _ =>
        if (c == ',' || c == '\x7d') && !s.around.isEmpty then (replace .trailing '*', rest)
        else plain

def comma (s : Scan) : Scan :=
  match s.around with
  | [] => s.push [.literal ','] ','
  | (outer, done) :: around =>
    { tokens := [], around := (outer, s.tokens.reverse :: done) :: around, before := some ',' }

def close? (s : Scan) : Option Scan :=
  match s.around with
  | [] => none
  | (outer, done) :: around =>
    let branches := (s.tokens.reverse :: done).reverse
    some { tokens := .alternatives branches :: outer, around, before := some '\x7d' }

def read? : (fuel : Nat) → Scan → Text → Option Scan
  | _, s, [] => some s
  | 0, _, _ => none
  | fuel + 1, s, c :: rest =>
    match c with
    | '?' => read? fuel (s.push [.any] c) rest
    | '*' =>
      match rest with
      | '*' :: rest =>
        let (s, rest) := s.stars rest
        read? fuel s rest
      | _ => read? fuel (s.push [.many] c) rest
    | '[' => (readClass? rest).bind fun (token, rest) => read? fuel (s.push [token] ']') rest
    | '\x7b' =>
      read? fuel { tokens := [], around := (s.tokens, []) :: s.around, before := some c } rest
    | '\x7d' => s.close?.bind fun s => read? fuel s rest
    | ',' => read? fuel s.comma rest
    | '\\' =>
      match rest with
      | [] => none
      | c :: rest => read? fuel (s.push [.literal c] c) rest
    | _ => read? fuel (s.push [.literal c] c) rest

end Scan

def parse? (text : Text) : Option (List Token) :=
  (Scan.read? text.length {} text).bind fun s =>
    if s.around.isEmpty then some s.tokens.reverse else none

/-! Matching -/

def tails : List UInt8 → List (List UInt8)
  | [] => [[]]
  | b :: rest => (b :: rest) :: tails rest

def dropBytes (wanted text : List UInt8) : List (List UInt8) :=
  if wanted.isPrefixOf text then [text.drop wanted.length] else []

def afterSlash (text : List UInt8) : List (List UInt8) :=
  (tails text).flatMap (dropBytes [47])

mutual

def Token.isVoid : Token → Bool
  | .alternatives branches => allBranchesVoid branches
  | _ => false

def allBranchesVoid : List (List Token) → Bool
  | [] => true
  | branch :: rest => allVoid branch && allBranchesVoid rest

def allVoid : List Token → Bool
  | [] => true
  | token :: rest => token.isVoid && allVoid rest

end

mutual

def Token.ends (text : List UInt8) : Token → List (List UInt8)
  | .literal c => dropBytes (bytesOf c) text
  | .any =>
    match text with
    | [] => []
    | _ :: rest => [rest]
  | .many => tails text
  | .leading => text :: dropBytes [47] text ++ afterSlash text
  | .trailing => (dropBytes [47] text).flatMap tails
  | .between => (dropBytes [47] text).flatMap fun rest => rest :: afterSlash rest
  | .oneOf negated ranges =>
    match text with
    | [] => []
    | b :: rest =>
      if ranges.any (fun (low, high) => low ≤ b && b ≤ high) != negated then [rest] else []
  | .alternatives branches =>
    if allBranchesVoid branches then [text] else branchEnds text branches

def branchEnds (text : List UInt8) : List (List Token) → List (List UInt8)
  | [] => []
  | branch :: rest =>
    (if allVoid branch then [] else sequenceEnds [text] branch) ++ branchEnds text rest

def sequenceEnds (texts : List (List UInt8)) : List Token → List (List UInt8)
  | [] => texts
  | token :: rest => sequenceEnds (texts.flatMap fun text => token.ends text).eraseDups rest

end

/-- The pattern matches the whole path. Two stars alone match every path. -/
def matches? (pattern : List Token) (path : Text) : Bool :=
  match pattern with
  | [.leading] => true
  | _ => (sequenceEnds [bytes path] pattern).any List.isEmpty

end Sveltify.Pattern.Glob
