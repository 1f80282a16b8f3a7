import Sveltify.Pattern.Regex.Escape

/-! Reading sets of characters in brackets. -/

namespace Sveltify.Pattern.Regex

inductive SetOperator where
  | inter
  | diff
  | symmDiff
deriving DecidableEq, Repr, Inhabited

def SetOperator.of? : Char → Option SetOperator
  | '&' => some .inter
  | '-' => some .diff
  | '~' => some .symmDiff
  | _ => none

def SetOperator.apply : SetOperator → CharSet → CharSet → CharSet
  | .inter => .inter
  | .diff => .diff
  | .symmDiff => .symmDiff

structure NestedSet where
  set : CharSet := .empty
  levels : Nat := 0

structure OpenSet where
  left : Option (SetOperator × NestedSet) := none
  members : NestedSet := {}
  count : Nat := 0

namespace OpenSet

def push (s : OpenSet) (member : NestedSet) : OpenSet :=
  let levels := max s.members.levels member.levels
  { s with members := ⟨s.members.set.union member.set, levels⟩, count := s.count + 1 }

def value (s : OpenSet) (flags : Flags) : NestedSet :=
  let right : NestedSet :=
    if s.count > 1 then { s.members with levels := s.members.levels + 1 } else s.members
  match s.left with
  | none => right
  | some (operator, left) =>
    ⟨operator.apply (flags.fold left.set) (flags.fold right.set),
      max left.levels right.levels + 1⟩

end OpenSet

def asciiClass? (flags : Flags) (text : Text) : Option (Option CharSet × Text) :=
  match text with
  | ':' :: text =>
    let (negated, text) := match text with
      | '^' :: rest => (true, rest)
      | _ => (false, text)
    let name := text.takeWhile (· != ':')
    match text.drop name.length with
    | ':' :: ']' :: rest =>
      (CharClass.ascii? (String.ofList name)).map fun set =>
        (flags.negate? negated (flags.fold set), rest)
    | _ => none
  | _ => none

def member : Reader (Char ⊕ CharSet) := do
  if (← current) == '\\' then
    match ← escape with
    | .char c byte =>
      if byte && c.toNat > 127 && !(← flags).unicode then failure
      return .inl c
    | .set set => return .inr set
    | .assertion _ => failure
  else
    let c ← current
    bump
    return .inl c

def memberOrRange : Reader CharSet := do
  let first ← member
  skipBlanks
  let ahead := (← behindNext).head?
  if (← current) != '-' || ahead == some ']' || ahead == some '-' then
    match first with
    | .inl c => return .single (← ofOption ((← flags).member? c))
    | .inr set => return set
  else
    step
    match first, ← member with
    | .inl first, .inl last =>
      let first ← ofOption ((← flags).member? first)
      let last ← ofOption ((← flags).member? last)
      if first ≤ last then return .between first last else failure
    | _, _ => failure

def leadingDashes : (fuel : Nat) → OpenSet → Reader OpenSet
  | 0, s => pure s
  | fuel + 1, s => do
    if (← current) == '-' then
      step
      leadingDashes fuel (s.push { set := .single '-' })
    else return s

mutual

/-- Reads a set in brackets, at its opening bracket. A dash or a closing bracket that comes first
stands for itself. -/
def bracket : (fuel : Nat) → Reader NestedSet
  | 0 => failure
  | fuel + 1 => do
    step
    let negated := (← current) == '^'
    if negated then step
    let s ← leadingDashes fuel {}
    if s.count == 0 && (← current) == ']' then
      step
      bracketRest fuel negated (s.push { set := .single ']' })
    else bracketRest fuel negated s

def bracketRest : (fuel : Nat) → (negated : Bool) → OpenSet → Reader NestedSet
  | 0, _, _ => failure
  | fuel + 1, negated, s => do
    skipBlanks
    let c ← current
    let flags ← flags
    if c == '[' then
      match asciiClass? flags ((← get).rest.drop 1) with
      | some (set, rest) =>
        let set ← ofOption set
        modify fun state => { state with rest }
        bracketRest fuel negated (s.push { set })
      | none => bracketRest fuel negated (s.push (← bracket fuel))
    else if c == ']' then
      bump
      let inner := s.value flags
      let set ← ofOption (flags.negate? negated (flags.fold inner.set))
      return ⟨set, inner.levels + 1⟩
    else
      let operator := if (← peekSecond) == some c then SetOperator.of? c else none
      match operator with
      | some operator =>
        bump
        bump
        bracketRest fuel negated { left := some (operator, s.value flags) }
      | none => bracketRest fuel negated (s.push { set := ← memberOrRange })

end

end Sveltify.Pattern.Regex
