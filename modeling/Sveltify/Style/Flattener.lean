import Sveltify.Style.Error
import Sveltify.Style.Rule
import Sveltify.Style.Selector
import Sveltify.Style.Token

/-! Flattening of nested rules. A stack of open frames collects declarations; the declarations of a
frame become a flat rule when a rule opens inside it, when it closes, or at a blank line. -/

namespace Sveltify.Style

inductive Frame.Kind where
  | selector (alternatives : List Text)
  | atRule (prelude : Text)
deriving DecidableEq, Repr, Inhabited

/-- An open rule with the declarations since it opened or last became a flat rule. A frame that a
bare declaration opened is implicit, and the next blank line closes it. -/
structure Frame where
  kind : Frame.Kind
  segment : List Text := []
  implicit : Bool := false
deriving DecidableEq, Repr, Inhabited

namespace Frame

def alternatives? (frame : Frame) : Option (List Text) :=
  match frame.kind with
  | .selector alternatives => some alternatives
  | .atRule _ => none

def prelude? (frame : Frame) : Option Text :=
  match frame.kind with
  | .selector _ => none
  | .atRule text => some text

def head (frame : Frame) : Text :=
  match frame.kind with
  | .selector alternatives => Text.joinWith [',', ' '] alternatives
  | .atRule text => text

def conditions (stack : List Frame) : List Text :=
  (stack.filterMap prelude?).reverse

/-- The flat rule of a stack's innermost frame: its selector is the innermost selector, or the
innermost at-rule when no selector encloses it. -/
def rule (frame : Frame) (outer : List Frame) : Rule :=
  match (frame :: outer).find? (·.alternatives?.isSome) with
  | some owner => ⟨owner.head, frame.segment, conditions (frame :: outer)⟩
  | none => ⟨frame.head, frame.segment, conditions outer⟩

end Frame

structure Flattener where
  stack : List Frame := []
  rules : List Rule := []
  root : Option Text := none
  previousBlank : Bool := false
deriving DecidableEq, Repr, Inhabited

namespace Flattener

def start (root : Option Text) : Flattener :=
  { root }

variable (m : Flattener)

def flush : Flattener :=
  match m.stack with
  | [] => m
  | frame :: outer =>
    let rule := frame.rule outer
    { m with
      stack := { frame with segment := [] } :: outer
      rules := if rule.isEmpty then m.rules else m.rules ++ [rule] }

def pop : Flattener :=
  let m := m.flush
  { m with stack := m.stack.tail }

def topImplicit : Bool :=
  m.stack.head?.any (·.implicit)

def closeImplicit : Flattener :=
  if m.topImplicit then m.pop else m

def parents : Option (List Text) :=
  m.stack.findSome? Frame.alternatives?

def frameKind (head : Text) : Frame.Kind :=
  if head.head? == some '@' then .atRule head else .selector (joinSelector m.parents head)

def openRule (head : Text) : Flattener :=
  let m := m.closeImplicit.flush
  { m with stack := { kind := m.frameKind head } :: m.stack }

/-- Closes the innermost rule. An implicit frame closes first, even if then none is left. -/
def closeRule (line : Nat) : Flattener × Option Error :=
  let m := m.closeImplicit
  if m.stack.isEmpty then (m, some (.unbalancedBraces line)) else (m.pop, none)

def attach (declaration : Text) : List Frame → List Frame
  | [] => []
  | frame :: outer => { frame with segment := frame.segment ++ [declaration] } :: outer

/-- Adds a declaration to the innermost rule, or to an implicit root rule when none is open. -/
def declare (text : Text) (line : Nat) : Flattener × Option Error :=
  match m.stack, m.root with
  | [], none => (m, some (.strayDeclaration line))
  | [], some root =>
    let frame : Frame := { kind := .selector [root], segment := [Text.trim text], implicit := true }
    ({ m with stack := [frame] }, none)
  | stack, _ => ({ m with stack := attach (Text.trim text) stack }, none)

/-- A blank line ends the declarations so far; of a run of blank lines only the first counts. -/
def blankLine : Flattener :=
  if m.previousBlank then m
  else if m.topImplicit then m.pop
  else m.flush

def declareAll (m : Flattener) (line : Nat) : List Text → Flattener × Option Error
  | [] => (m, none)
  | d :: rest =>
    match m.declare d line with
    | (m, none) => declareAll m line rest
    | failed => failed

def inlineRule (selector body : Text) (line : Nat) : Flattener × Option Error :=
  match (m.openRule selector).declareAll line (splitDeclarations body) with
  | (m, none) => m.closeRule line
  | failed => failed

def after (blank : Bool) : Flattener × Option Error → Flattener × Option Error
  | (m, none) => ({ m with previousBlank := blank }, none)
  | failed => failed

def step (line : Nat) : Token → Flattener × Option Error
  | .blank => after true (m.blankLine, none)
  | .open head => after false (m.openRule head, none)
  | .close => after false (m.closeRule line)
  | .declaration text => after false (m.declare text line)
  | .inlineRule selector body => after false (m.inlineRule selector body line)

def finishStack (rules : List Rule) : List Frame → List Rule
  | [] => rules
  | frame :: outer =>
    let rule := frame.rule outer
    finishStack (if rule.isEmpty then rules else rules ++ [rule]) outer

def finish : List Rule :=
  finishStack m.rules m.stack

def run (m : Flattener) : List (Nat × Token) → Except Error Flattener
  | [] => .ok m
  | (line, token) :: rest =>
    match m.step line token with
    | (m, none) => run m rest
    | (_, some e) => .error e

end Flattener

def flattenRules (s : Text) (root : Option Text) : Except Error (List Rule) :=
  ((Flattener.start root).run (Token.tokenize s)).map Flattener.finish

end Sveltify.Style
