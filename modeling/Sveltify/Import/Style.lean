import Sveltify.Style.Module

/-! The style module that a component imports. -/

namespace Sveltify

structure StyleImport where
  specifier : String
  placeholder : Option String
  named : List (String × String)
  module : Style.Module
  sheet : Style.Sheet
  offset : Nat

namespace StyleImport

def exportedValue? (style : StyleImport) (name : String) : Option Text :=
  (style.named.lookup name).bind style.module.exportedValue?

def isPlaceholder (style : StyleImport) (name : String) : Bool :=
  style.placeholder == some name

end StyleImport

end Sveltify
