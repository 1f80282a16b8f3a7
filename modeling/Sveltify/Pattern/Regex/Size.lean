import Sveltify.Pattern.Regex.Basic

/-! The size of the automaton that recognizes an expression byte by byte. A repetition with bounds
counts once for each of its steps, so that a short expression can have a large automaton. -/

namespace Sveltify.Pattern

abbrev ByteRanges := List (Nat × Nat)

def bytesOf (n : Nat) : List Nat :=
  if n < 0x80 then [n]
  else if n < 0x800 then [0xC0 + n / 64, 0x80 + n % 64]
  else if n < 0x10000 then [0xE0 + n / 4096, 0x80 + n / 64 % 64, 0x80 + n % 64]
  else [0xF0 + n / 262144, 0x80 + n / 4096 % 64, 0x80 + n / 64 % 64, 0x80 + n % 64]

/-- A code at which a range of codes has to be cut, so that the bytes of its characters are those of
a sequence of ranges: the last one before the cut. -/
def cut? (lo hi : Nat) : Option Nat :=
  let lengths := [0x7F, 0x7FF, 0xFFFF].find? fun last => lo ≤ last && last < hi
  let blocks := [64, 4096, 262144].findSome? fun size =>
    if hi < 0x80 || lo / size == hi / size then none
    else if lo % size != 0 then some (lo - lo % size + size - 1)
    else if hi % size != size - 1 then some (hi - hi % size - 1)
    else none
  lengths.or blocks

def byteRanges : (fuel lo hi : Nat) → List ByteRanges
  | 0, _, _ => []
  | fuel + 1, lo, hi =>
    if hi < lo then []
    else if lo < 0xE000 && 0xD7FF < hi then
      byteRanges fuel lo 0xD7FF ++ byteRanges fuel 0xE000 hi
    else
      match cut? lo hi with
      | some last => byteRanges fuel lo last ++ byteRanges fuel (last + 1) hi
      | none => [(bytesOf lo).zip (bytesOf hi)]

/-- The states of an automaton, each with its edges: the bytes of an edge and the state to which it
leads, counted from one; zero is the end. -/
abbrev States := List (List (Nat × Nat × Nat))

def States.add (states : States) (edges : List (Nat × Nat × Nat)) : States × Nat :=
  match states.reverse.idxOf? edges with
  | some i => (states, i + 1)
  | none => (edges :: states, states.length + 1)

def groupByFirst : List ByteRanges → List ((Nat × Nat) × List ByteRanges)
  | [] => []
  | [] :: rest => groupByFirst rest
  | (first :: tail) :: rest =>
    match groupByFirst rest with
    | (range, tails) :: groups =>
      if range == first then (range, tail :: tails) :: groups
      else (first, [tail]) :: (range, tails) :: groups
    | [] => [(first, [tail])]

def States.addAll : (depth : Nat) → List ByteRanges → States → States × Nat
  | 0, _, states => (states, 0)
  | depth + 1, sequences, states =>
    match groupByFirst sequences with
    | [] => (states, 0)
    | groups =>
      let (states, edges) := groups.foldl
        (fun (states, edges) (range, tails) =>
          let (states, target) := addAll depth tails states
          (states, (range.1, range.2, target) :: edges))
        (states, [])
      states.add edges.reverse

def countBeginnings : (depth : Nat) → List ByteRanges → Nat
  | 0, _ => 0
  | depth + 1, sequences =>
    ((groupByFirst sequences).map fun (_, tails) => countBeginnings depth tails + 1).sum

def stateSize : Nat := 32

def byteEdgeSize : Nat := 8

def edgeSize : Nat := 4

namespace CharSet

def sequences (s : CharSet) : List ByteRanges :=
  s.ranges.flatMap fun (lo, hi) => byteRanges 64 lo hi

/-- The size of the automaton for a set when it reads forward: characters share the states for the
bytes in which they end. -/
def forwardSize (s : CharSet) : Nat :=
  let states := (States.addAll 4 s.sequences []).1
  states.foldl (fun size edges => size + stateSize + byteEdgeSize * edges.length) stateSize

/-- The size of the automaton for a set when it reads backward: there is a way for each sequence, and
they share the states for the bytes in which they begin. -/
def backwardSize (s : CharSet) : Nat :=
  let sequences := s.sequences
  stateSize * (countBeginnings 4 sequences + 2) + edgeSize * sequences.length

def size (s : CharSet) (backward : Bool) : Nat :=
  match s.ranges with
  | [] => stateSize
  | [(lo, hi)] =>
    if lo == hi then stateSize * (bytesOf lo).length else general
  | _ => general
where
  general : Nat :=
    if s.isAscii then stateSize * 2 + byteEdgeSize * s.ranges.length
    else if backward then s.backwardSize else s.forwardSize

end CharSet

namespace Regex

mutual

def isNullable : Regex → Bool
  | .empty | .assert _ => true
  | .oneOf _ _ => false
  | .group _ inner => inner.isNullable
  | .seq parts => areNullable parts
  | .alt choices => isAnyNullable choices
  | .times inner least _ _ => least == 0 || inner.isNullable

def areNullable : List Regex → Bool
  | [] => true
  | r :: rest => r.isNullable && areNullable rest

def isAnyNullable : List Regex → Bool
  | [] => false
  | r :: rest => r.isNullable || isAnyNullable rest

end

mutual

def isBlank : Regex → Bool
  | .empty | .assert _ => true
  | .oneOf _ _ => false
  | .group _ inner => inner.isBlank
  | .seq parts | .alt parts => areBlank parts
  | .times inner _ most _ => most == some 0 || inner.isBlank

def areBlank : List Regex → Bool
  | [] => true
  | r :: rest => r.isBlank && areBlank rest

end

def repeatedSize (inner : Nat) (nullable : Bool) (least : Nat) : Option Nat → Nat
  | some most =>
    if most == 0 then stateSize
    else if least == most then least * inner
    else if least == 0 && most == 1 then inner + 2 * stateSize + 2 * edgeSize
    else (if least == 0 then stateSize else least * inner) + stateSize +
      (most - least) * (inner + stateSize + 2 * edgeSize)
  | none =>
    if least == 0 && nullable then inner + 3 * stateSize + 4 * edgeSize
    else max least 1 * inner + stateSize + 2 * edgeSize

mutual

def size (backward : Bool) : Regex → Nat
  | .empty | .assert _ => stateSize
  | .oneOf chars _ => chars.size backward
  | .group captures inner =>
    inner.size backward + if captures && !backward then 2 * stateSize else 0
  | .seq parts => sizeOfAll backward parts
  | .alt choices =>
    sizeOfAll backward choices + 2 * stateSize + edgeSize * choices.length
  | .times inner least most _ =>
    let (least, most) := if inner.isBlank then (min least 1, some (min (most.getD 1) 1))
      else (least, most)
    repeatedSize (inner.size backward) inner.isNullable least most

def sizeOfAll (backward : Bool) : List Regex → Nat
  | [] => 0
  | r :: rest => r.size backward + sizeOfAll backward rest

end

def maxSize : Nat := 10485760

def fits (r : Regex) : Bool :=
  r.size false ≤ maxSize && r.size true ≤ maxSize

end Regex

end Sveltify.Pattern
