import Sveltify.Pattern.Regex.Flags
import Sveltify.Text.Digit

/-! Reading characters of regular expressions, and what stands after a backslash. -/

namespace Sveltify.Pattern.Regex

structure State where
  rest : Text
  flags : Flags := {}
  names : List Text := []

abbrev Reader := StateT State Option

def ofOption {α : Type} : Option α → Reader α
  | some a => pure a
  | none => failure

def flags : Reader Flags :=
  return (← get).flags

def peek : Reader (Option Char) :=
  return (← get).rest.head?

def peekSecond : Reader (Option Char) :=
  return ((← get).rest.drop 1).head?

def current : Reader Char := do
  ofOption (← peek)

def bump : Reader Unit :=
  modify fun state => { state with rest := state.rest.drop 1 }

def eat (text : String) : Reader Bool := do
  let state ← get
  if text.toList.isPrefixOf state.rest then
    set { state with rest := state.rest.drop text.length }
    return true
  else return false

def withoutBlanks (flags : Flags) : (comment : Bool) → Text → Text
  | _, [] => []
  | comment, c :: rest =>
    if !flags.verbose then c :: rest
    else if comment then withoutBlanks flags (c != '\n') rest
    else if Text.isBlank c then withoutBlanks flags false rest
    else if c == '#' then withoutBlanks flags true rest
    else c :: rest

def skipBlanks : Reader Unit :=
  modify fun state => { state with rest := withoutBlanks state.flags false state.rest }

def behindNext : Reader Text := do
  let state ← get
  return withoutBlanks state.flags false (state.rest.drop 1)

def step : Reader Unit := do
  bump
  skipBlanks

def takeWhile (p : Char → Bool) : (fuel : Nat) → Reader Text
  | 0 => pure []
  | fuel + 1 => do
    match ← peek with
    | some c =>
      if p c then
        step
        return c :: (← takeWhile p fuel)
      else return []
    | none => return []

def takeAll (p : Char → Bool) : Reader Text := do
  takeWhile p (← get).rest.length

inductive Primitive where
  | char (c : Char) (byte : Bool)
  | set (set : CharSet)
  | assertion (assertion : Assertion)

def codePoint? (n : Nat) : Option Char :=
  if n.isValidChar then some (Char.ofNat n) else none

def hexChar? (digits : Text) : Option Char :=
  if digits.isEmpty then none else (Text.hexNumber? digits).bind codePoint?

def hexDigits : (count : Nat) → Reader Text
  | 0 => pure []
  | count + 1 => do
    let c ← current
    step
    return c :: (← hexDigits count)

def hexEscape (letter : Char) : Reader Primitive := do
  step
  if (← current) == '\x7b' then
    step
    let digits ← takeAll (· != '\x7d')
    if (← current) != '\x7d' then failure
    step
    return .char (← ofOption (hexChar? digits)) false
  else
    let digits ← hexDigits (if letter == 'x' then 2 else if letter == 'u' then 4 else 8)
    return .char (← ofOption (hexChar? digits)) (letter == 'x')

def splitAt? (separator : Text) : Text → Option (Text × Text)
  | [] => none
  | c :: rest =>
    if separator.isPrefixOf (c :: rest) then some ([], (c :: rest).drop separator.length)
    else (splitAt? separator rest).map fun (before, after) => (c :: before, after)

def property? (text : Text) : Option CharSet :=
  match (splitAt? ['!', '='] text).or <| (splitAt? [':'] text).or (splitAt? ['='] text) with
  | some (property, value) => CharClass.withValue? property value
  | none => CharClass.named? text

def propertyEscape (letter : Char) : Reader Primitive := do
  step
  let set? ← do
    if (← current) == '\x7b' then
      step
      let name ← takeAll (· != '\x7d')
      if (← current) != '\x7d' then failure
      bump
      pure (property? name)
    else
      let c ← current
      step
      pure (if c == '\\' then none else CharClass.named? [c])
  let flags ← flags
  if !flags.unicode then failure
  let set ← ofOption set?
  return .set (← ofOption (flags.negate? letter.isUpper (flags.fold set)))

def wordSide? (name : String) : Option WordSide :=
  match name with
  | "start" => some .start
  | "end" => some .stop
  | "start-half" => some .startHalf
  | "end-half" => some .stopHalf
  | _ => none

def wordSide : Reader WordSide := do
  if (← peek) != some '\x7b' then return .edge
  let state ← get
  step
  let isName := fun (c : Char) => c.isAlpha || c == '-'
  if isName (← current) then
    let name ← takeAll isName
    if (← current) != '\x7d' then failure
    bump
    ofOption (wordSide? (String.ofList name))
  else
    set state
    return .edge

def letterEscape? : Char → Option Char
  | 'a' => some '\x07'
  | 'f' => some '\x0c'
  | 'n' => some '\n'
  | 'r' => some '\r'
  | 't' => some '\t'
  | 'v' => some '\x0b'
  | _ => none

def escape : Reader Primitive := do
  bump
  let c ← current
  let flags ← flags
  if c == 'x' || c == 'u' || c == 'U' then hexEscape c
  else if c == 'p' || c == 'P' then propertyEscape c
  else if ['d', 's', 'w', 'D', 'S', 'W'].contains c then
    bump
    return .set (← ofOption (flags.classEscape? c))
  else
    bump
    match letterEscape? c, flags.assertionEscape? c with
    | some c, _ => return .char c false
    | none, some (.word .edge ascii) => return .assertion (.word (← wordSide) ascii)
    | none, some assertion => return .assertion assertion
    | none, none =>
      if c.toNat < 128 && !c.isAlphanum then return .char c false else failure

end Sveltify.Pattern.Regex
