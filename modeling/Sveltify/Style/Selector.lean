import Sveltify.Style.Scanner

/-! Joining a nested selector with the selectors around it. -/

namespace Sveltify.Style

def replaceAmpersand (parent : Text) (fragment : Text) : Text :=
  fragment.flatMap fun c => if c == '&' then parent else [c]

/-- One alternative below one parent: each `&` stands for the parent, and without one the fragment
is a descendant of it. -/
def joinOne (parent fragment : Text) : Text :=
  if fragment.contains '&' then replaceAmpersand parent fragment else parent ++ ' ' :: fragment

def stripAmpersand : Text → Text
  | '&' :: rest => Text.trimStart rest
  | fragment => fragment

def joinSelector (parents : Option (List Text)) (fragment : Text) : List Text :=
  match parents with
  | none => (splitSelectors fragment).map stripAmpersand
  | some parents => parents.flatMap fun parent => (splitSelectors fragment).map (joinOne parent)

end Sveltify.Style
