/-! Findings that do not stop a conversion. -/

namespace Sveltify

/-- How much a finding matters: after a hint the output is complete, after a warning it needs
attention. -/
inductive Severity where
  | hint
  | warning
deriving DecidableEq, Repr, Inhabited

namespace Severity

def word : Severity → String
  | .hint => "hint"
  | .warning => "warning"

def label : Severity → String
  | .hint => "Hint"
  | .warning => "Warning"

end Severity

inductive Finding where
  | unresolvedImport
  | manualReview
  | ambiguousShadowing
  | unresolvedThis
  | duplicateOutput
deriving DecidableEq, Repr, Inhabited

namespace Finding

def code : Finding → String
  | .unresolvedImport => "unresolved-import"
  | .manualReview => "manual-review"
  | .ambiguousShadowing => "ambiguous-shadowing"
  | .unresolvedThis => "unresolved-this"
  | .duplicateOutput => "duplicate-output"

def severity : Finding → Severity
  | .manualReview => .hint
  | _ => .warning

end Finding

structure Diagnostic where
  finding : Finding
  message : String
  line : Nat
  column : Nat
deriving DecidableEq, Repr, Inhabited

def Diagnostic.severity (d : Diagnostic) : Severity :=
  d.finding.severity

end Sveltify
