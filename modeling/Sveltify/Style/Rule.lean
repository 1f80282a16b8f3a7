import Sveltify.Text.Lines

/-! Flat rules and style sheets as text. A sheet writes consecutive rules that share their
conditions in one block, with a blank line between two rules. -/

namespace Sveltify.Style

/-- A flat rule: a selector, its declarations, and the at-rules around it, outermost first. -/
structure Rule where
  selector : Text
  declarations : List Text
  conditions : List Text := []
deriving DecidableEq, Repr, Inhabited

structure CustomProperty where
  name : Text
  value : Text
deriving DecidableEq, Repr, Inhabited

def pad (depth : Nat) : Text :=
  List.replicate (2 * depth) ' '

def openLine (depth : Nat) (head : Text) : Text :=
  pad depth ++ head ++ [' ', '\x7b']

def closeLine (depth : Nat) : Text :=
  pad depth ++ ['\x7d']

def wrapLines (depth : Nat) (body : Nat → List Text) : List Text → List Text
  | [] => body depth
  | condition :: rest =>
    openLine depth condition :: wrapLines (depth + 1) body rest ++ [closeLine depth]

namespace Rule

def bodyLines (rule : Rule) (depth : Nat) : List Text :=
  openLine depth rule.selector :: rule.declarations.map (pad (depth + 1) ++ ·) ++ [closeLine depth]

def lines (rule : Rule) : List Text :=
  wrapLines 0 rule.bodyLines rule.conditions

def isEmpty (rule : Rule) : Bool :=
  rule.declarations.isEmpty

def runs : List Rule → List (List Rule)
  | [] => []
  | rule :: rest =>
    match runs rest with
    | [] => [[rule]]
    | run :: others =>
      if run.head?.any (·.conditions == rule.conditions) then (rule :: run) :: others
      else [rule] :: run :: others

def bodiesLines (rules : List Rule) (depth : Nat) : List Text :=
  match rules with
  | [] => []
  | rule :: rest => rule.bodyLines depth ++ rest.flatMap fun r => [] :: r.bodyLines depth

def runLines (run : List Rule) : List Text :=
  wrapLines 0 (bodiesLines run) ((run.head?.map Rule.conditions).getD [])

end Rule

structure Sheet where
  rules : List Rule
  customProperties : List CustomProperty := []
deriving DecidableEq, Repr, Inhabited

namespace Sheet

def lines (sheet : Sheet) : List Text :=
  match Rule.runs sheet.rules with
  | [] => []
  | run :: rest => Rule.runLines run ++ rest.flatMap fun r => [] :: Rule.runLines r

def css (sheet : Sheet) : Text :=
  Text.unlines sheet.lines

end Sheet

def CustomProperty.declaration (property : CustomProperty) : Text :=
  ['-', '-'] ++ property.name ++ [':', ' '] ++ property.value ++ [';']

def hoist (rules : List Rule) (properties : List CustomProperty) : List Rule :=
  if properties.isEmpty then rules
  else
    { selector := ":root".toList, declarations := properties.map CustomProperty.declaration } ::
      rules

end Sveltify.Style
