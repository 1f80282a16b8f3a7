import Sveltify.Pattern.CharClass

/-! Regular expressions. A match is the first one that a search from left to right finds, and at one
place the first one in the order in which the expression prefers its alternatives. -/

namespace Sveltify.Pattern

inductive WordSide where
  | edge
  | noEdge
  | start
  | stop
  | startHalf
  | stopHalf
deriving DecidableEq, Repr, Inhabited

/-- A condition on a place between two characters. Where `crlf` holds, a line ends at a carriage
return too; where `ascii` holds, words are those of ASCII. -/
inductive Assertion where
  | textStart
  | textEnd
  | lineStart (crlf : Bool)
  | lineEnd (crlf : Bool)
  | word (side : WordSide) (ascii : Bool)
deriving DecidableEq, Repr, Inhabited

inductive Regex where
  | empty
  /-- One character of a set that was written with so many levels of brackets and operators. -/
  | oneOf (chars : CharSet) (levels : Nat)
  | assert (assertion : Assertion)
  | group (captures : Bool) (inner : Regex)
  | seq (parts : List Regex)
  | alt (choices : List Regex)
  | times (inner : Regex) (least : Nat) (most : Option Nat) (greedy : Bool)
deriving Inhabited

structure Place where
  offset : Nat := 0
  before : Option Char := none
  rest : Text
deriving Inhabited

instance : BEq Place where
  beq p q := p.offset == q.offset

namespace WordSide

def holds (before after : Bool) : WordSide → Bool
  | .edge => before != after
  | .noEdge => before == after
  | .start => !before && after
  | .stop => before && !after
  | .startHalf => !before
  | .stopHalf => !after

end WordSide

namespace Assertion

def holds (p : Place) : Assertion → Bool
  | .textStart => p.before.isNone
  | .textEnd => p.rest.isEmpty
  | .lineStart crlf =>
    p.before.isNone || p.before == some '\n' ||
      (crlf && p.before == some '\r' && p.rest.head? != some '\n')
  | .lineEnd crlf =>
    p.rest.isEmpty || (crlf && p.rest.head? == some '\r') ||
      (p.rest.head? == some '\n' && !(crlf && p.before == some '\r'))
  | .word side ascii =>
    let isWord := if ascii then CharClass.asciiWord.contains else CharClass.isWord
    side.holds (p.before.any isWord) (p.rest.head?.any isWord)

end Assertion

/-- What a search for the ends of a repetition has done: the places from which it went on, with the
number of steps that were left there, and the places that it found, the preferred one first. -/
structure Trail where
  entered : List (Nat × Place) := []
  found : List Place := []

namespace Trail

def find (t : Trail) (p : Place) : Trail :=
  if t.found.contains p then t else { t with found := t.found ++ [p] }

/-- Finds the places that any number of steps reach, but one at least. A place is left only once,
which ends the search. -/
def many (step : Place → List Place) (greedy : Bool) : (fuel : Nat) → Trail → Place → Trail
  | 0, t, _ => t
  | fuel + 1, t, p =>
    if t.entered.contains (0, p) then t
    else
      (step p).foldl
        (fun t q =>
          if greedy then (many step greedy fuel t q).find q
          else many step greedy fuel (t.find q) q)
        { t with entered := (0, p) :: t.entered }

def upTo (step : Place → List Place) (greedy : Bool) : (count : Nat) → Trail → Place → Trail
  | 0, t, p => t.find p
  | count + 1, t, p =>
    if t.entered.contains (count + 1, p) then t
    else
      let t := { t with entered := (count + 1, p) :: t.entered }
      if greedy then ((step p).foldl (upTo step greedy count) t).find p
      else (step p).foldl (upTo step greedy count) (t.find p)

end Trail

namespace Regex

def exactly (step : Place → List Place) : (count : Nat) → List Place → List Place
  | 0, places => places
  | count + 1, places =>
    let next := (places.flatMap step).eraseDups
    if next == places then places else exactly step count next

/-- The places at which a repetition may end, the preferred one first. More steps than there are
characters reach no other place. -/
def repeated (step : Place → List Place) (least : Nat) (most : Option Nat) (greedy : Bool)
    (p : Place) : List Place :=
  let fuel := p.rest.length + 1
  match most with
  | some most =>
    let starts := exactly step least [p]
    (starts.foldl (Trail.upTo step greedy (min (most - least) fuel)) {}).found
  | none =>
    let starts := exactly step (least - 1) [p]
    let found := (starts.foldl (Trail.many step greedy fuel) {}).found
    if least > 0 then found
    else if greedy then (found ++ [p]).eraseDups
    else (p :: found).eraseDups

mutual

def ends : Regex → Place → List Place
  | .empty, p => [p]
  | .oneOf chars _, p =>
    match p.rest with
    | c :: rest => if chars.contains c then [⟨p.offset + 1, some c, rest⟩] else []
    | [] => []
  | .assert assertion, p => if assertion.holds p then [p] else []
  | .group _ inner, p => inner.ends p
  | .seq parts, p => endsOfAll parts [p]
  | .alt choices, p => endsOfAny choices p
  | .times inner least most greedy, p => repeated inner.ends least most greedy p

def endsOfAll : List Regex → List Place → List Place
  | [], places => places
  | r :: rest, places => endsOfAll rest (places.flatMap r.ends).eraseDups

def endsOfAny : List Regex → Place → List Place
  | [], _ => []
  | r :: rest, p => (r.ends p ++ endsOfAny rest p).eraseDups

end

def findFrom (r : Regex) : (skipped rest : Text) → Option (Text × Text)
  | skipped, rest =>
    match (r.ends ⟨skipped.length, skipped.head?, rest⟩).head? with
    | some last => some (skipped.reverse, last.rest)
    | none =>
      match rest with
      | [] => none
      | c :: rest => findFrom r (c :: skipped) rest

def find? (r : Regex) (text : Text) : Option (Text × Text) :=
  findFrom r [] text

def matches? (r : Regex) (text : Text) : Bool :=
  (r.find? text).isSome

def replaceFirst (r : Regex) (text replacement : Text) : Text :=
  match r.find? text with
  | some (before, after) => before ++ replacement ++ after
  | none => text

mutual

def levels : Regex → Nat
  | .empty | .assert _ => 0
  | .oneOf _ levels => levels
  | .group _ inner | .times inner _ _ _ => inner.levels + 1
  | .seq parts | .alt parts => levelsOfAll parts + 1

def levelsOfAll : List Regex → Nat
  | [] => 0
  | r :: rest => max r.levels (levelsOfAll rest)

end

end Regex

end Sveltify.Pattern
