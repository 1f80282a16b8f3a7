/-! Dialects of script source and how a file name chooses one. -/

namespace Sveltify.Script

structure Dialect where
  jsx : Bool := false
  typescript : Bool := false
  decorators : Bool := false
deriving DecidableEq, Repr, Inhabited

inductive Language where
  | javascript
  | typescript
deriving DecidableEq, Repr, Inhabited

def Language.ofFilename (filename : String) : Language :=
  if filename.endsWith ".ts" || filename.endsWith ".tsx" then .typescript else .javascript

namespace Dialect

/-- The dialect of a file that may hold markup: in a plain `.ts` file it may not. -/
def ofFilename (filename : String) (decorators : Bool) : Dialect :=
  match Language.ofFilename filename with
  | .typescript => { jsx := !filename.endsWith ".ts", typescript := true, decorators }
  | .javascript => { jsx := true, decorators }

end Dialect

end Sveltify.Script
