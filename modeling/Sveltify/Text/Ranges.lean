/-! Tables of characters, as ranges of their codes. -/

namespace Sveltify.Text

def inRanges (ranges : List (Nat × Nat)) (n : Nat) : Bool :=
  ranges.any fun (lo, hi) => lo ≤ n && n ≤ hi

/-- Numbers in letters, in base 26, after the digits `n` of the first one. A capital is the last digit
of its number. -/
def numbersFrom (n : Nat) : List UInt8 → List Nat
  | [] => []
  | c :: rest =>
    if c < 97 then (26 * n + (c.toNat - 65)) :: numbersFrom 0 rest
    else numbersFrom (26 * n + (c.toNat - 97)) rest

def numbers (letters : String) : List Nat :=
  numbersFrom 0 letters.toUTF8.data.toList

/-- Closed ranges after the end of an earlier one. The numbers tell by turns how many codes lie
before a range and how many are in it. -/
def rangesFrom (after : Nat) : List Nat → List (Nat × Nat)
  | gap :: count :: rest =>
    (after + gap, after + gap + count - 1) :: rangesFrom (after + gap + count) rest
  | _ => []

def rangeTable (letters : String) : List (Nat × Nat) :=
  rangesFrom 0 (numbers letters)

structure Stretch where
  lo : Nat
  hi : Nat
  step : Nat
deriving DecidableEq, Repr, Inhabited

namespace Stretch

def has (s : Stretch) (n : Nat) : Bool :=
  s.lo ≤ n && n ≤ s.hi && (n - s.lo) % s.step == 0

def ranges (s : Stretch) : List (Nat × Nat) :=
  if s.step ≤ 1 then [(s.lo, s.hi)]
  else (List.range ((s.hi - s.lo) / s.step + 1)).map fun i =>
    (s.lo + i * s.step, s.lo + i * s.step)

end Stretch

/-- Stretches after the end of an earlier one. The numbers tell by turns how many codes lie before
a stretch and how many it has. -/
def stretchesFrom (step after : Nat) : List Nat → List Stretch
  | gap :: count :: rest =>
    let last := after + gap + (count - 1) * step
    ⟨after + gap, last, step⟩ :: stretchesFrom step (last + 1) rest
  | _ => []

def stretchTable (step : Nat) (rows : List String) : List Stretch :=
  stretchesFrom step 0 (rows.flatMap numbers)

def inStretches (stretches : List Stretch) (n : Nat) : Bool :=
  stretches.any (·.has n)

end Sveltify.Text
