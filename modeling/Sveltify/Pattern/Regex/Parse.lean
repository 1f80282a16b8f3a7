import Sveltify.Pattern.Regex.Bracket
import Sveltify.Pattern.Regex.Size

/-! Reading regular expressions. Expressions that look around a place or refer back to a group are
not regular and are refused. -/

namespace Sveltify.Pattern.Regex

def number : Reader Nat := do
  modify fun state => { state with rest := state.rest.dropWhile Text.isBlank }
  let digits ← takeAll Char.isDigit
  modify fun state => { state with rest := state.rest.dropWhile Text.isBlank }
  skipBlanks
  if digits.isEmpty then failure
  let n := digits.foldl (fun n c => n * 10 + (c.toNat - 48)) 0
  if n < 4294967296 then return n else failure

def bounds : Reader (Nat × Option Nat) := do
  step
  let least ← number
  let most ← do
    if (← current) != ',' then pure (some least)
    else
      step
      if (← current) == '\x7d' then pure none else pure (some (← number))
  if (← current) != '\x7d' then failure
  step
  if most.any (· < least) then failure
  return (least, most)

def repetition (operator : Char) (r : Regex) : Reader Regex := do
  let (least, most) ← do
    if operator == '\x7b' then bounds
    else
      bump
      pure (if operator == '*' then (0, none) else if operator == '+' then (1, none)
        else (0, some 1))
  let lazy ← eat "?"
  return .times r least most (lazy == (← flags).swapGreed)

/-- Reads flags up to a colon or a closing parenthesis. `seen` holds the flags and the dash before
them, the last one first; no flag comes twice, and one follows the dash. -/
def readFlags : (fuel : Nat) → (seen : Text) → Flags → Reader (Text × Flags)
  | 0, _, _ => failure
  | fuel + 1, seen, changed => do
    let c ← current
    if c == ':' || c == ')' then
      if seen.head? == some '-' then failure else return (seen, changed)
    else if seen.contains c then failure
    else
      bump
      if c == '-' then readFlags fuel (c :: seen) changed
      else readFlags fuel (c :: seen) (← ofOption (changed.set? (!seen.contains '-') c))

def isGroupNameChar (first : Bool) (c : Char) : Bool :=
  c == '_' || Text.isLetter c ||
    (!first && (Text.isNumeral c || c == '.' || c == '[' || c == ']'))

def groupName : Reader Unit := do
  let state ← get
  let name := state.rest.takeWhile (· != '>')
  let isName := match name with
    | [] => false
    | c :: rest => isGroupNameChar true c && rest.all (isGroupNameChar false)
  if !isName || name.length == state.rest.length || state.names.contains name then failure
  set { state with rest := state.rest.drop (name.length + 1), names := name :: state.names }

inductive GroupHead where
  | group (captures : Bool) (flags : Flags)
  | mode (flags : Flags)

def groupHead : Reader GroupHead := do
  step
  let rest := (← get).rest
  let looksAround := ["?=", "?!", "?<=", "?<!"].any fun mark => mark.toList.isPrefixOf rest
  let flags ← flags
  if looksAround then failure
  else if (← eat "?P<") then
    groupName
    return .group true flags
  else if (← eat "?<") then
    groupName
    return .group true flags
  else if (← eat "?") then
    let (seen, changed) ← readFlags (rest.length + 1) [] flags
    let last ← current
    bump
    if last == ':' then return .group false changed
    else if seen.isEmpty then failure
    else return .mode changed
  else return .group true flags

def atom : Reader Regex := do
  let c ← current
  let flags ← flags
  if c == '\\' then
    match ← escape with
    | .char c byte => return .oneOf (← ofOption (flags.literal? c byte)) 0
    | .set set => return .oneOf set 0
    | .assertion assertion => return .assert assertion
  else
    bump
    match c with
    | '.' => return .oneOf (← ofOption flags.point?) 0
    | '^' => return .assert flags.lineStart
    | '$' => return .assert flags.lineEnd
    | _ => return .oneOf (← ofOption (flags.literal? c false)) 0

def ofParts : List Regex → Regex
  | [] => .empty
  | [r] => r
  | parts => .seq parts

def ofChoices : List Regex → Regex
  | [r] => r
  | choices => .alt choices

mutual

def alternatives : (fuel : Nat) → Reader (List Regex)
  | 0 => failure
  | fuel + 1 => do
    let first := ofParts (← parts fuel []).reverse
    if (← eat "|") then return first :: (← alternatives fuel)
    else return [first]

/-- Reads what follows some parts, the last of which stands first, up to a bar, a closing
parenthesis or the end. A change of mode counts as a part that matches nothing. -/
def parts : (fuel : Nat) → List Regex → Reader (List Regex)
  | 0, _ => failure
  | fuel + 1, done => do
    skipBlanks
    match ← peek with
    | none | some '|' | some ')' => return done
    | some '(' =>
      match ← groupHead with
      | .mode changed =>
        modify fun state => { state with flags := changed }
        parts fuel (.empty :: done)
      | .group captures inner =>
        let outer ← flags
        modify fun state => { state with flags := inner }
        let choices ← alternatives fuel
        if !(← eat ")") then failure
        modify fun state => { state with flags := outer }
        parts fuel (.group captures (ofChoices choices) :: done)
    | some '[' =>
      let found ← bracket fuel
      parts fuel (.oneOf found.set found.levels :: done)
    | some c =>
      if ['*', '+', '?', '\x7b'].contains c then
        match done with
        | [] | .empty :: _ => failure
        | r :: done => parts fuel ((← repetition c r) :: done)
      else parts fuel ((← atom) :: done)

end

def maxLevels : Nat := 250

def parse? (text : Text) : Option Regex := do
  let (choices, state) ← (alternatives (2 * text.length + 4)).run { rest := text }
  let r := ofChoices choices
  if state.rest.isEmpty && r.levels ≤ maxLevels && r.fits then some r else none

end Sveltify.Pattern.Regex
