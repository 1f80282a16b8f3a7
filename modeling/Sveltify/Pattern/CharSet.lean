import Sveltify.Text.Fold
import Sveltify.Text.Property
import Sveltify.Text.WritingSystem

/-! Sets of characters, kept as ranges of their codes. -/

namespace Sveltify.Pattern

/-- A set of characters: closed ranges of codes, in ascending order, that neither meet nor touch. -/
structure CharSet where
  ranges : List (Nat × Nat)
deriving DecidableEq, Repr, Inhabited

namespace CharSet

def lastCode : Nat := 0x10FFFF

def has (s : CharSet) (n : Nat) : Bool :=
  Text.inRanges s.ranges n

def contains (s : CharSet) (c : Char) : Bool :=
  s.has c.toNat

def joinFrom (first : Nat × Nat) : List (Nat × Nat) → List (Nat × Nat)
  | [] => [first]
  | next :: rest =>
    if next.1 ≤ first.2 + 1 then joinFrom (first.1, max first.2 next.2) rest
    else first :: joinFrom next rest

def ofRanges (ranges : List (Nat × Nat)) : CharSet :=
  match ranges.mergeSort fun a b => a.1 ≤ b.1 with
  | [] => ⟨[]⟩
  | first :: rest => ⟨joinFrom first rest⟩

def ofStretches (stretches : List Text.Stretch) : CharSet :=
  ofRanges (stretches.flatMap (·.ranges))

def ofCategories (categories : List Text.Category) : CharSet :=
  ofStretches (categories.flatMap (·.stretches))

def ofCodes (codes : List Nat) : CharSet :=
  ofRanges (codes.map fun n => (n, n))

def single (c : Char) : CharSet :=
  ⟨[(c.toNat, c.toNat)]⟩

def between (first last : Char) : CharSet :=
  ⟨[(first.toNat, last.toNat)]⟩

def empty : CharSet := ⟨[]⟩

def all : CharSet := ⟨[(0, lastCode)]⟩

def union (a b : CharSet) : CharSet :=
  ofRanges (a.ranges ++ b.ranges)

def gapsFrom (next : Nat) : List (Nat × Nat) → List (Nat × Nat)
  | [] => if next ≤ lastCode then [(next, lastCode)] else []
  | (lo, hi) :: rest =>
    if next < lo then (next, lo - 1) :: gapsFrom (hi + 1) rest else gapsFrom (hi + 1) rest

def not (s : CharSet) : CharSet :=
  ⟨gapsFrom 0 s.ranges⟩

def inter (a b : CharSet) : CharSet :=
  (a.not.union b.not).not

def diff (a b : CharSet) : CharSet :=
  a.inter b.not

def symmDiff (a b : CharSet) : CharSet :=
  (a.diff b).union (b.diff a)

def folded (s : CharSet) : CharSet :=
  let small := s.union (ofCodes ((Text.foldPairs.filter fun p => s.has p.1).map (·.2)))
  small.union (ofCodes ((Text.foldPairs.filter fun p => small.has p.2).map (·.1)))

def asciiFolded (s : CharSet) : CharSet :=
  let letters := (List.range 26).flatMap fun i => [(65 + i, 97 + i), (97 + i, 65 + i)]
  s.union (ofCodes ((letters.filter fun p => s.has p.1).map (·.2)))

def isAscii (s : CharSet) : Bool :=
  s.ranges.all fun r => r.2 < 128

end CharSet

end Sveltify.Pattern
