import Sveltify.Number.Double
import Sveltify.Script.Cursor
import Sveltify.Text.Identifier

/-! Number literals, read by an automaton that collects their digits. -/

namespace Sveltify.Script.Literal

inductive NumberPart where
  | start
  | zero
  | integer
  | point
  | fraction
  | mark
  | sign
  | exponent
  | radix (base : Nat)
  | digits (base : Nat)
  | leadingZero
  | big
deriving DecidableEq

/-- A number while it is read: the digits with the last one first, how many of them follow the
point, the exponent, whether a separator was read last, and whether one stands before no digit or a
leading zero before further digits. -/
structure NumberScan where
  part : NumberPart := .start
  digits : List Nat := []
  places : Nat := 0
  exponent : Nat := 0
  negative : Bool := false
  separator : Bool := false
  faulty : Bool := false

namespace NumberScan

variable (r : NumberScan)

def digitOf (base : Nat) (c : Char) : Option Nat :=
  (Text.hexDigit? c).filter (· < base)

def push (part : NumberPart) (d : Nat) : NumberScan :=
  { r with part, digits := d :: r.digits, separator := false }

def pushPlace (d : Nat) : NumberScan :=
  { r.push .fraction d with places := r.places + 1 }

def pushExponent (d : Nat) : NumberScan :=
  { r with part := .exponent, exponent := r.exponent * 10 + d, separator := false }

def settle : NumberScan :=
  { r with separator := false, faulty := r.faulty || r.separator }

def pushSeparator : NumberScan :=
  { r.settle with separator := true }

def enter (part : NumberPart) : NumberScan :=
  { r.settle with part }

def isOctal : Bool :=
  r.part == .leadingZero && r.digits.all (· < 8)

def step (c : Char) : Option NumberScan :=
  match r.part with
  | .start =>
    if c == '0' then some (r.push .zero 0)
    else if c == '.' then some { r with part := .point }
    else (digitOf 10 c).map (r.push .integer)
  | .zero =>
    match c with
    | 'x' | 'X' => some { r with part := .radix 16 }
    | 'o' | 'O' => some { r with part := .radix 8 }
    | 'b' | 'B' => some { r with part := .radix 2 }
    | '.' => some { r with part := .fraction }
    | 'e' | 'E' => some { r with part := .mark }
    | 'n' => some { r with part := .big }
    | '_' => some { r.pushSeparator with part := .leadingZero, faulty := true }
    | _ => (digitOf 10 c).map fun d => { r.push .leadingZero d with faulty := true }
  | .integer =>
    match c with
    | '_' => some r.pushSeparator
    | '.' => some (r.enter .fraction)
    | 'e' | 'E' => some (r.enter .mark)
    | 'n' => some (r.enter .big)
    | _ => (digitOf 10 c).map (r.push .integer)
  | .leadingZero =>
    match c with
    | '_' => some r.pushSeparator
    | 'n' => some (r.enter .big)
    | '.' => if r.isOctal then none else some (r.enter .fraction)
    | 'e' | 'E' => if r.isOctal then none else some (r.enter .mark)
    | _ => (digitOf 10 c).map (r.push .leadingZero)
  | .point => (digitOf 10 c).map r.pushPlace
  | .fraction =>
    match c with
    | '_' => some r.pushSeparator
    | 'e' | 'E' => some (r.enter .mark)
    | _ => (digitOf 10 c).map r.pushPlace
  | .mark =>
    match c with
    | '+' => some { r with part := .sign }
    | '-' => some { r with part := .sign, negative := true }
    | '_' => some { r.pushSeparator with part := .sign }
    | _ => (digitOf 10 c).map r.pushExponent
  | .sign => if c == '_' then some r.pushSeparator else (digitOf 10 c).map r.pushExponent
  | .exponent => if c == '_' then some r.pushSeparator else (digitOf 10 c).map r.pushExponent
  | .radix base =>
    if c == '_' then some r.pushSeparator else (digitOf base c).map (r.push (.digits base))
  | .digits base =>
    match c with
    | '_' => some r.pushSeparator
    | 'n' => some (r.enter .big)
    | _ => (digitOf base c).map (r.push (.digits base))
  | .big => none

def isComplete : Bool :=
  match r.part with
  | .zero | .integer | .exponent | .digits _ | .leadingZero | .big | .fraction => true
  | _ => false

def isFaulty : Bool :=
  r.settle.faulty

def mantissa (base : Nat) : Nat :=
  r.digits.foldr (fun d n => n * base + d) 0

/-- The digits read in a base, with the sum rounded to 53 binary digits after each of them. -/
def roundedMantissa (base : Nat) : Nat :=
  r.digits.foldr (fun d n =>
    let sum := n * base + d
    ((Double.ofRatio sum 1).whole?).getD sum) 0

def exactDigits (base : Nat) : Nat :=
  match base with
  | 16 => 16
  | 8 => 21
  | _ => 64

/-- The digits read in a base that is a power of two; what needs more than 64 binary digits is
rounded digit by digit. -/
def radixMantissa (base : Nat) : Nat :=
  if r.digits.length ≤ exactDigits base + 1 then r.mantissa base else r.roundedMantissa base

def value : Nat × Int :=
  match r.part with
  | .digits base => (r.radixMantissa base, 0)
  | .leadingZero => (r.mantissa (if r.isOctal then 8 else 10), 0)
  | _ =>
    let exponent : Int := if r.negative then -(r.exponent : Int) else r.exponent
    (r.mantissa 10, exponent - r.places)

end NumberScan

end Sveltify.Script.Literal
