/-! Reasons why a style module does not compile. -/

namespace Sveltify.Style

inductive Error where
  | notScript (filename : String)
  | missingTemplate (filename : String)
  | unresolvedVariable (name : String)
  | unsupportedInterpolation (expression : String)
  | customPropertyConflict (property first second : String)
  | missingRootClass (exportName : String)
  | unbalancedBraces (line : Nat)
  | strayDeclaration (line : Nat)
deriving DecidableEq, Repr, Inhabited

def Error.message : Error → String
  | .notScript filename => s!"failed to parse style module {filename}"
  | .missingTemplate filename => s!"no css tagged template found in {filename}"
  | .unresolvedVariable name => s!"style variable `{name}` is not declared with a literal value"
  | .unsupportedInterpolation expression =>
    "unsupported style interpolation `$\x7b" ++ expression ++ "\x7d`"
  | .customPropertyConflict property first second =>
    s!"style variables `{first}` and `{second}` both map to custom property `--{property}`"
  | .missingRootClass exportName => s!"bare declarations need an exported `{exportName}` root class"
  | .unbalancedBraces line => s!"unbalanced closing brace on line {line}"
  | .strayDeclaration line => s!"declaration outside of any rule on line {line}"

end Sveltify.Style
