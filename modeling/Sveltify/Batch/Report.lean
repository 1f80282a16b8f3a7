import Sveltify.Data.Write
import Sveltify.Diagnostic
import Sveltify.Path

/-! What a run reports, as text or as JSON. -/

namespace Sveltify.Batch

inductive Status where
  | written
  | converted
  | skipped
  | failed
deriving DecidableEq, Repr, Inhabited

def Status.word : Status → String
  | .written => "written"
  | .converted => "converted"
  | .skipped => "skipped"
  | .failed => "failed"

structure Report where
  source : Path
  status : Status
  component : Option String := none
  output : Option Path := none
  diagnostics : List Diagnostic := []
  error : Option String := none
  code : Option String := none
deriving Inhabited

structure Summary where
  converted : Nat := 0
  skipped : Nat := 0
  failed : Nat := 0
  warnings : Nat := 0
  hints : Nat := 0
deriving DecidableEq, Repr, Inhabited

namespace Summary

def addDiagnostic (s : Summary) (d : Diagnostic) : Summary :=
  match d.severity with
  | .warning => { s with warnings := s.warnings + 1 }
  | .hint => { s with hints := s.hints + 1 }

def addReport (s : Summary) (r : Report) : Summary :=
  let counted := match r.status with
    | .written | .converted => { s with converted := s.converted + 1 }
    | .skipped => { s with skipped := s.skipped + 1 }
    | .failed => { s with failed := s.failed + 1 }
  r.diagnostics.foldl addDiagnostic counted

def ofReports (reports : List Report) : Summary :=
  reports.foldl addReport {}

def count (n : Nat) (word : String) : String :=
  if n == 1 then s!"{n} {word}" else s!"{n} {word}s"

def text (s : Summary) : String :=
  let converted := count s.converted "component"
  let warnings := count s.warnings "warning"
  let hints := count s.hints "hint"
  "====================================\n" ++
    s!"react-to-svelte converted {converted} ({s.failed} failed, {s.skipped} skipped) " ++
    s!"with {warnings} and {hints}"

end Summary

inductive Format where
  | human
  | json
deriving DecidableEq, Repr, Inhabited

def diagnosticText (source : Path) (d : Diagnostic) : String :=
  let place := s!"{source.toString}:{d.line}:{d.column}"
  s!"{place}\n{d.severity.label}: {d.message} ({d.finding.code})\n\n"

def Report.text (r : Report) : String :=
  let error := match r.error with
    | some error => s!"{r.source.toString}\nError: {error}\n\n"
    | none => ""
  let findings := String.join (r.diagnostics.map (diagnosticText r.source))
  let code := match r.code, r.output with
    | some code, some path => s!"==> {path.toString} <==\n{code}\n"
    | _, _ => ""
  error ++ findings ++ code

def humanText (reports : List Report) (summary : Summary) : String :=
  String.join (reports.map Report.text) ++ summary.text ++ "\n"

def diagnosticData (d : Diagnostic) : Data :=
  .record [("type", .string d.severity.label), ("line", .ofNat d.line), ("column", .ofNat d.column),
    ("message", .string d.message), ("code", .string d.finding.code)]

def optionalField (name : String) (value : Option String) : List (String × Data) :=
  (value.map fun text => (name, Data.string text)).toList

def Report.data (r : Report) : Data :=
  .record ([("source", .string r.source.toString), ("status", .string r.status.word)] ++
    optionalField "component" r.component ++
    optionalField "output" (r.output.map Path.toString) ++
    [("diagnostics", .list (r.diagnostics.map diagnosticData))] ++
    optionalField "error" r.error ++
    optionalField "code" r.code)

def Summary.data (s : Summary) : Data :=
  .record [("converted", .ofNat s.converted), ("skipped", .ofNat s.skipped),
    ("failed", .ofNat s.failed), ("warnings", .ofNat s.warnings), ("hints", .ofNat s.hints)]

def jsonText (reports : List Report) (summary : Summary) : String :=
  Data.toJson (.record [("files", .list (reports.map Report.data)), ("summary", summary.data)])

def Format.write (format : Format) (reports : List Report) (summary : Summary) : String :=
  match format with
  | .human => humanText reports summary
  | .json => jsonText reports summary

end Sveltify.Batch
