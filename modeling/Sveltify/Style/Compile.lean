import Sveltify.Style.Flattener
import Sveltify.Style.Root
import Sveltify.Style.Template

/-! From a style module to its sheet: interpolate, normalize, flatten, hoist. -/

namespace Sveltify.Style

structure Options where
  rootClassExport : String := "ROOT_CLASS"
  strictVariables : Bool := true
  filename : String := "styles.js"
deriving DecidableEq, Repr, Inhabited

def Module.rootSelector? (m : Module) (options : Options) : Option Text :=
  (m.exportedValue? options.rootClassExport).map ('.' :: ·)

def compileModule (m : Module) (options : Options) : Except Error Sheet := do
  let flat ← flattenTemplate m options.strictVariables
  let root := m.rootSelector? options
  let normalized ← normalizeRoot flat.text root options.rootClassExport
  let rules ← flattenRules normalized root
  return ⟨hoist rules flat.customProperties, flat.customProperties⟩

end Sveltify.Style
