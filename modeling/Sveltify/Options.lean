import Sveltify.Import.Resolve
import Sveltify.Style.Compile

/-! Settings of a conversion. -/

namespace Sveltify

def defaultExcludedModules : List String :=
  ["react", "react-dom", "prop-types"]

structure Options where
  filename : Path := Path.ofString "Component.jsx"
  outputDir : Path := Path.ofString "."
  aliases : Aliases := []
  replacements : List Replacement := []
  excludedModules : List String := defaultExcludedModules
  styleSuffix : String := "styles"
  style : Style.Options := {}
deriving Inhabited

end Sveltify
