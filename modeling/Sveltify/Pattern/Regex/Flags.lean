import Sveltify.Pattern.Regex.Basic

/-! The modes in which a regular expression is read, and what they make of characters and sets. -/

namespace Sveltify.Pattern.Regex

structure Flags where
  ignoreCase : Bool := false
  multiLine : Bool := false
  dotAll : Bool := false
  swapGreed : Bool := false
  verbose : Bool := false
  crlf : Bool := false
  unicode : Bool := true
deriving DecidableEq, Repr, Inhabited

namespace Flags

variable (flags : Flags)

def set? (value : Bool) : Char → Option Flags
  | 'i' => some { flags with ignoreCase := value }
  | 'm' => some { flags with multiLine := value }
  | 's' => some { flags with dotAll := value }
  | 'U' => some { flags with swapGreed := value }
  | 'x' => some { flags with verbose := value }
  | 'R' => some { flags with crlf := value }
  | 'u' => some { flags with unicode := value }
  | _ => none

def fold (set : CharSet) : CharSet :=
  if !flags.ignoreCase then set else if flags.unicode then set.folded else set.asciiFolded

/-- What a set has not. Without Unicode it would hold parts of characters, and is refused. -/
def negate? (negated : Bool) (set : CharSet) : Option CharSet :=
  if !negated then some set else if flags.unicode then some set.not else none

/-- The set of a character that was written as a byte if `byte`. Without Unicode, a byte beyond
ASCII is no character, and a character beyond ASCII has no case. -/
def literal? (c : Char) (byte : Bool) : Option CharSet :=
  if !flags.unicode && byte && c.toNat > 127 then none
  else some (flags.fold (.single c))

def member? (c : Char) : Option Char :=
  if !flags.unicode && c.toNat > 127 then none else some c

def point? : Option CharSet :=
  if !flags.unicode then none
  else if flags.dotAll then some .all
  else if flags.crlf then some (CharSet.ofCodes [10, 13]).not
  else some (CharSet.ofCodes [10]).not

def lineStart : Assertion :=
  if flags.multiLine then .lineStart flags.crlf else .textStart

def lineEnd : Assertion :=
  if flags.multiLine then .lineEnd flags.crlf else .textEnd

def classEscape? (letter : Char) : Option CharSet :=
  let set? := match letter.toLower with
    | 'd' => some (if flags.unicode then CharClass.digit else .between '0' '9')
    | 'w' => some (if flags.unicode then CharClass.word else CharClass.asciiWord)
    | 's' => some (if flags.unicode then CharClass.space else CharClass.asciiSpace)
    | _ => none
  set?.bind (flags.negate? letter.isUpper)

def assertionEscape? : Char → Option Assertion
  | 'A' => some .textStart
  | 'z' => some .textEnd
  | 'b' => some (.word .edge !flags.unicode)
  | 'B' => some (.word .noEdge !flags.unicode)
  | '<' => some (.word .start !flags.unicode)
  | '>' => some (.word .stop !flags.unicode)
  | _ => none

end Flags

end Sveltify.Pattern.Regex
