import Sveltify.Path
import Sveltify.Pattern.Regex.Parse
import Sveltify.Table

/-! Import paths and how they change: by replacement rules, of which the first that fits is applied,
and by aliases that stand for directories. -/

namespace Sveltify

structure Expression where
  text : Text
  regex : Pattern.Regex
deriving Inhabited

def Expression.ofText? (text : Text) : Option Expression :=
  (Pattern.Regex.parse? text).map (⟨text, ·⟩)

structure Replacement where
  pattern : Expression
  token : Option Expression
  replacement : Text
deriving Inhabited

def Replacement.replace? (rule : Replacement) (path : Text) : Option Text :=
  if rule.pattern.regex.matches? path then
    some (match rule.token with
      | some token => token.regex.replaceFirst path rule.replacement
      | none => rule.replacement)
  else none

def applyReplacements (rules : List Replacement) (path : Text) : Option Text :=
  rules.findSome? (·.replace? path)

abbrev Aliases := Table Path

def Aliases.match? (aliases : Aliases) (path : Text) : Option (Path × Text) :=
  aliases.findSome? fun (name, target) =>
    match Text.dropPrefix? name.toList path with
    | some [] => some (target, [])
    | some ('/' :: rest) => some (target, rest)
    | _ => none

def Aliases.target? (aliases : Aliases) (path : Text) : Option Path :=
  (aliases.match? path).map fun (target, rest) =>
    if rest.isEmpty then target else target.join ⟨rest⟩

def dotted (relative : Text) : Text :=
  if relative.isEmpty then ['.']
  else if relative == ['.', '.'] || Text.startsWith relative "../".toList ||
      Text.startsWith relative "./".toList then relative
  else "./".toList ++ relative

def Aliases.resolve? (aliases : Aliases) (path : Text) (outputDir : Path) : Option Text :=
  (aliases.target? path).map fun target => dotted (Path.relative outputDir target).text

def redirect? (rules : List Replacement) (aliases : Aliases) (outputDir : Path)
    (specifier : Text) : Option Text :=
  let replaced := applyReplacements rules specifier
  let path := replaced.getD specifier
  aliases.resolve? path outputDir <|> replaced

end Sveltify
