import Sveltify.Batch.Report

/-! The arguments of the command line. An option takes the argument after it unless a value is
attached to it, and is settled when the next argument is taken. -/

namespace Sveltify.Batch

structure Arguments where
  paths : List String := []
  config : Option String := none
  outputDir : Option String := none
  format : Option Format := none
  dryRun : Bool := false
  ignore : List String := []
  watch : Bool := false
  verbose : Bool := false
deriving DecidableEq, Repr, Inhabited

/-- Why arguments are not taken. Help and the version are asked for in this way, too. -/
inductive UsageError where
  | unknownArgument
  | invalidValue
  | argumentConflict
  | tooManyValues
  | displayHelp
  | displayVersion
deriving DecidableEq, Repr, Inhabited

inductive ValueOption where
  | config
  | outputDir
  | format
  | ignore
deriving DecidableEq, Repr, Inhabited

inductive Switch where
  | takes (option : ValueOption)
  | dryRun
  | watch
  | verbose
  | help
  | version
deriving DecidableEq, Repr, Inhabited

def Switch.ofLong? : String → Option Switch
  | "config" => some (.takes .config)
  | "output-dir" => some (.takes .outputDir)
  | "output" => some (.takes .format)
  | "ignore" => some (.takes .ignore)
  | "dry-run" => some .dryRun
  | "watch" => some .watch
  | "verbose" => some .verbose
  | "help" => some .help
  | "version" => some .version
  | _ => none

def Switch.ofShort? : Char → Option Switch
  | 'c' => some (.takes .config)
  | 'o' => some (.takes .outputDir)
  | 'v' => some .verbose
  | 'h' => some .help
  | 'V' => some .version
  | _ => none

structure ArgumentScan where
  found : Arguments := {}
  pending : Option (ValueOption × Option String) := none
  onlyPaths : Bool := false
deriving Inhabited

namespace ArgumentScan

def setValue (found : Arguments) (option : ValueOption) (value : String) :
    Except UsageError Arguments :=
  match option with
  | .config =>
    if found.config.isSome then .error .argumentConflict
    else .ok { found with config := some value }
  | .outputDir =>
    if found.outputDir.isSome then .error .argumentConflict
    else .ok { found with outputDir := some value }
  | .format =>
    if found.format.isSome then .error .argumentConflict
    else
      match value with
      | "human" => .ok { found with format := some .human }
      | "json" => .ok { found with format := some .json }
      | _ => .error .invalidValue
  | .ignore => .ok { found with ignore := found.ignore ++ [value] }

def settle (s : ArgumentScan) : Except UsageError ArgumentScan :=
  match s.pending with
  | none => .ok s
  | some (_, none) => .error .invalidValue
  | some (option, some value) => do
    return { s with found := ← setValue s.found option value, pending := none }

def setSwitch (s : ArgumentScan) (switch : Switch) : Except UsageError ArgumentScan := do
  let s ← s.settle
  let once := fun (before : Bool) (found : Arguments) =>
    if before then throw .argumentConflict else return { s with found }
  match switch with
  | .dryRun => once s.found.dryRun { s.found with dryRun := true }
  | .watch => once s.found.watch { s.found with watch := true }
  | .verbose => once s.found.verbose { s.found with verbose := true }
  | .help => throw .displayHelp
  | .version => throw .displayVersion
  | .takes _ => return s

def setOption (s : ArgumentScan) (option : ValueOption) (attached : Option Text) :
    Except UsageError ArgumentScan := do
  let s ← s.settle
  match attached with
  | some value => return { s with found := ← setValue s.found option (String.ofList value) }
  | none => return { s with pending := some (option, none) }

def addPath (s : ArgumentScan) (path : String) : Except UsageError ArgumentScan := do
  let s ← s.settle
  return { s with found := { s.found with paths := s.found.paths ++ [path] } }

def splitValue (text : Text) : Text × Option Text :=
  let name := text.takeWhile (· != '=')
  match text.drop name.length with
  | _ :: value => (name, some value)
  | [] => (name, none)

def long (s : ArgumentScan) (text : Text) : Except UsageError ArgumentScan :=
  let (name, attached) := splitValue text
  match Switch.ofLong? (String.ofList name), attached with
  | none, _ => .error .unknownArgument
  | some (.takes option), _ => s.setOption option attached
  | some _, some _ => .error .tooManyValues
  | some switch, none => s.setSwitch switch

def short : ArgumentScan → Text → Except UsageError ArgumentScan
  | s, [] => .ok s
  | s, c :: rest =>
    match Switch.ofShort? c with
    | none => .error .unknownArgument
    | some (.takes option) =>
      match rest with
      | [] => s.setOption option none
      | '=' :: value => s.setOption option (some value)
      | value => s.setOption option (some value)
    | some switch => do short (← s.setSwitch switch) rest

def plain (s : ArgumentScan) (argument : String) : Except UsageError ArgumentScan :=
  match s.pending with
  | some (option, none) => .ok { s with pending := some (option, some argument) }
  | _ => s.addPath argument

def step (s : ArgumentScan) (argument : String) : Except UsageError ArgumentScan :=
  if s.onlyPaths then s.addPath argument
  else
    match argument.toList with
    | ['-', '-'] => .ok { s with onlyPaths := true }
    | '-' :: '-' :: text => s.long text
    | ['-'] => s.plain argument
    | '-' :: text => s.short text
    | _ => s.plain argument

end ArgumentScan

def Arguments.parse (arguments : List String) : Except UsageError Arguments := do
  let scan ← arguments.foldlM ArgumentScan.step {}
  return (← scan.settle).found

end Sveltify.Batch
