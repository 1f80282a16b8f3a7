import Sveltify.Number.Double

/-! The decimal text of a number: the fewest digits that are read back as the number, and of those
the nearest ones, written without an exponent. -/

namespace Sveltify.Double

/-- The numbers that round to a given one, in quarters of its last binary digit, and whether the
bounds are among them. -/
structure Interval where
  low : Nat
  value : Nat
  high : Nat
  closed : Bool

def interval (mantissa : Nat) (exponent : Int) : Interval :=
  let below := if mantissa == Nat.pow 2 52 && minExponent < exponent then 1 else 2
  ⟨4 * mantissa - below, 4 * mantissa, 4 * mantissa + 2, mantissa % 2 == 0⟩

/-- The decimal with so many digits in units of `10 ^ place`, if one rounds to the number. -/
def decimalAt? (mantissa : Nat) (exponent place : Int) : Option Nat :=
  let i := interval mantissa exponent
  let (tenUp, tenDown) := signedPower 10 place
  let (twoUp, twoDown) := signedPower 2 (exponent - 2)
  let unit := tenUp * twoDown
  let quarter := tenDown * twoUp
  let inside := fun (n : Nat) =>
    let x := n * unit
    if i.closed then i.low * quarter ≤ x && x ≤ i.high * quarter
    else i.low * quarter < x && x < i.high * quarter
  let value := i.value * quarter
  let floor := value / unit
  let down := value - floor * unit
  let up := (floor + 1) * unit - value
  match inside floor, inside (floor + 1) with
  | true, true => some (if down ≤ up then floor else floor + 1)
  | true, false => some floor
  | false, true => some (floor + 1)
  | false, false => none

def leadingPlace (mantissa : Nat) (exponent : Int) : Int :=
  let (n, d) := ratio mantissa exponent
  if d ≤ n then ((toString (n / d)).length : Int) - 1
  else
    let places := (List.range 340).find? fun t => d ≤ n * Nat.pow 10 (t + 1)
    Int.negSucc (places.getD 0)

def shortest (mantissa : Nat) (exponent : Int) : Nat × Int :=
  let leading := leadingPlace mantissa exponent
  let found := (List.range 17).findSome? fun (extra : Nat) =>
    let place := leading - (extra : Int)
    (decimalAt? mantissa exponent place).map fun digits =>
      if digits % 10 == 0 then (digits / 10, place + 1) else (digits, place)
  found.getD (0, 0)

def positional (digits : Nat) (place : Int) : String :=
  let text := (toString digits).toList
  if 0 ≤ place then String.ofList (text ++ List.replicate place.toNat '0')
  else
    let places := (-place).toNat
    let padded := List.replicate (places + 1 - text.length) '0' ++ text
    let whole := padded.take (padded.length - places)
    String.ofList (whole ++ '.' :: padded.drop (padded.length - places))

def text : Double → String
  | .finite 0 _ => "0"
  | .finite mantissa exponent =>
    let (digits, place) := shortest mantissa exponent
    positional digits place
  | .infinite => "inf"

def wholeLimit : Nat := Nat.pow 2 63 - 1

def textInString (x : Double) : String :=
  match x.whole? with
  | some n => toString (min n wholeLimit)
  | none => x.text

end Sveltify.Double
