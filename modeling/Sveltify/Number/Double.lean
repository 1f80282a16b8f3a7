/-! Numbers with 53 binary digits, none of them negative. -/

namespace Sveltify

/-- A number: a mantissa times a power of two, or beyond the largest of those. -/
inductive Double where
  | finite (mantissa : Nat) (exponent : Int)
  | infinite
deriving DecidableEq, Repr, Inhabited

def roundQuotient (n d : Nat) : Nat :=
  let quotient := n / d
  let rest := n % d
  if d < 2 * rest || (2 * rest == d && quotient % 2 == 1) then quotient + 1 else quotient

def signedPower (base : Nat) (exponent : Int) : Nat × Nat :=
  (base.pow exponent.toNat, base.pow (-exponent).toNat)

namespace Double

def minExponent : Int := -1074

def maxExponent : Int := 971

def ofRatio (n d : Nat) : Double :=
  if n == 0 then .finite 0 0
  else
    let low := max ((n.log2 : Int) - (d.log2 : Int) - 53) minExponent
    let scaled := fun (exponent : Int) =>
      let (up, down) := signedPower 2 exponent
      (n * down, d * up)
    let (a, b) := scaled low
    let exponent := if b * Nat.pow 2 53 ≤ a then low + 1 else low
    let (a, b) := scaled exponent
    let mantissa := roundQuotient a b
    let (mantissa, exponent) :=
      if mantissa == Nat.pow 2 53 then (Nat.pow 2 52, exponent + 1) else (mantissa, exponent)
    if maxExponent < exponent then .infinite else .finite mantissa exponent

def ofDecimal (mantissa : Nat) (exponent : Int) : Double :=
  if mantissa == 0 then .finite 0 0
  else
    let size := (mantissa.log2 / 3 : Int) + exponent
    if 400 < exponent then .infinite
    else if size < -400 then .finite 0 0
    else
      let (up, down) := signedPower 10 exponent
      ofRatio (mantissa * up) down

def ratio (mantissa : Nat) (exponent : Int) : Nat × Nat :=
  let (up, down) := signedPower 2 exponent
  (mantissa * up, down)

def add : Double → Double → Double
  | .finite m e, .finite m' e' =>
    let (n, d) := ratio m e
    let (n', d') := ratio m' e'
    ofRatio (n * d' + n' * d) (d * d')
  | _, _ => .infinite

def whole? : Double → Option Nat
  | .finite m e =>
    let (n, d) := ratio m e
    if n % d == 0 then some (n / d) else none
  | .infinite => none

end Double

end Sveltify
