import Sveltify.Config.Evaluate
import Sveltify.Data.Read
import Sveltify.FileSystem
import Sveltify.Options

/-! Configurations: which settings there are, how they are decoded and how a configuration file is
found and loaded. -/

namespace Sveltify

structure WrittenReplacement where
  pattern : String
  token : Option String
  replacement : String
deriving DecidableEq, Repr, Inhabited

structure Settings where
  aliases : Table String := []
  replacements : List WrittenReplacement := []
  outputPath : Option String := none
  excludedModules : Option (List String) := none
  styleSuffix : Option String := none
  rootClassExport : Option String := none
  strictVariables : Option Bool := none
  ignore : List String := []
deriving Inhabited

def WrittenReplacement.ofData? : Data → Option WrittenReplacement
  | .list [.string pattern, token, .string replacement] =>
    (token.optional? Data.string?).map (⟨pattern, ·, replacement⟩)
  | .list [.string pattern, .string replacement] => some ⟨pattern, none, replacement⟩
  | _ => none

namespace Settings

def setField? (s : Settings) (name : String) (data : Data) : Option Settings :=
  match name with
  | "aliases" => (data.tableOf? Data.string?).map fun x => { s with aliases := x }
  | "moduleReplacements" =>
    (data.listOf? WrittenReplacement.ofData?).map fun x => { s with replacements := x }
  | "outputPath" => (data.optional? Data.string?).map fun x => { s with outputPath := x }
  | "excludedModules" =>
    (data.optional? (Data.listOf? Data.string?)).map fun x => { s with excludedModules := x }
  | "styleSuffix" => (data.optional? Data.string?).map fun x => { s with styleSuffix := x }
  | "rootClassExport" => (data.optional? Data.string?).map fun x => { s with rootClassExport := x }
  | "strictStyleVariables" =>
    (data.optional? Data.bool?).map fun x => { s with strictVariables := x }
  | "ignore" => (data.listOf? Data.string?).map fun x => { s with ignore := x }
  | _ => some s

def fieldNames : List String :=
  ["aliases", "moduleReplacements", "outputPath", "excludedModules", "styleSuffix",
    "rootClassExport", "strictStyleVariables", "ignore"]

def ofFields? (fields : List (String × Data)) : Option Settings :=
  fields.foldlM (fun s (name, data) => s.setField? name data) {}

/-- The settings that data gives: a record, or a list of all fields of which only the last may be
missing. -/
def ofData? : Data → Option Settings
  | .record fields => ofFields? fields
  | .list items =>
    if items.length + 1 < fieldNames.length || fieldNames.length < items.length then none
    else ofFields? (fieldNames.zip items)
  | _ => none

end Settings

structure Config where
  source : Option Path := none
  aliases : Aliases := []
  replacements : List Replacement := []
  outputDir : Option Path := none
  excludedModules : List String := defaultExcludedModules
  styleSuffix : String := "styles"
  style : Style.Options := {}
  ignore : List String := []
deriving Inhabited

namespace Config

inductive Error where
  | notFound (path : Path)
  | unreadable (path : Path) (cause : FileError)
  | malformed (path : Path)
  | evaluation (path : Path) (fault : Fault)
  | invalid (path : Path)
  | missingOutput
  | invalidPattern (pattern : String)
deriving Inhabited

def Error.message : Error → String
  | .notFound path => s!"config file not found: {path.toString}"
  | .unreadable path _ => s!"failed to read {path.toString}"
  | .malformed path => s!"failed to parse {path.toString}"
  | .evaluation path (.unsupported line expression) =>
    s!"{path.toString}:{line}: cannot evaluate `{expression}`"
  | .evaluation path (.undefined line name) => s!"{path.toString}:{line}: `{name}` is not defined"
  | .evaluation path .noExport => s!"{path.toString} does not export a configuration object"
  | .invalid path => s!"invalid configuration in {path.toString}"
  | .missingOutput => "no output directory: set `outputPath` in the config or pass --output-dir"
  | .invalidPattern pattern => s!"invalid regular expression `{pattern}`"

def resolveIn (directory : Path) (path : String) : Path :=
  (directory.join (Path.ofString path)).normalize

def compilePattern (pattern : String) : Except Error Expression :=
  match Expression.ofText? pattern.toList with
  | some expression => .ok expression
  | none => .error (.invalidPattern pattern)

def compileReplacement (rule : WrittenReplacement) : Except Error Replacement := do
  let pattern ← compilePattern rule.pattern
  let token ← rule.token.mapM compilePattern
  return ⟨pattern, token, rule.replacement.toList⟩

def ofSettings (settings : Settings) (directory : Path) : Except Error Config := do
  let replacements ← settings.replacements.mapM compileReplacement
  let base : Config := {}
  return {
    aliases := settings.aliases.map fun (name, target) => (name, resolveIn directory target)
    replacements
    outputDir := settings.outputPath.map (resolveIn directory)
    excludedModules := settings.excludedModules.getD base.excludedModules
    styleSuffix := settings.styleSuffix.getD base.styleSuffix
    style := { base.style with
      rootClassExport := settings.rootClassExport.getD base.style.rootClassExport
      strictVariables := settings.strictVariables.getD base.style.strictVariables }
    ignore := settings.ignore }

def directoryOf (path : Path) : Path :=
  path.parent?.getD (Path.ofString ".")

def scriptData (path : Path) (text : String) : Except Error Data :=
  let text := dropMark text.toList
  match Script.parse dialect text with
  | .error _ => .error (.malformed path)
  | .ok parsed =>
    let scope : Scope := { source := ⟨text⟩, directory := directoryOf path }
    match evaluateItems scope parsed.module.kids with
    | .ok value => .ok value.toData
    | .error fault => .error (.evaluation path fault)

def fileData (path : Path) (text : String) : Except Error Data :=
  if path.extension? == some "json".toList then
    match Data.ofJson? text with
    | some data => .ok data
    | none => .error (.malformed path)
  else scriptData path text

def ofData (path : Path) (data : Data) : Except Error Config :=
  match Settings.ofData? data with
  | none => .error (.invalid path)
  | some settings => do
    return { ← ofSettings settings (directoryOf path) with source := some path }

def load (files : FileSystem) (path : Path) : Except Error Config :=
  if files.isFile path then
    match files.readText path with
    | .error e => .error (.unreadable path e)
    | .ok text => fileData path text >>= ofData path
  else .error (.notFound path)

def fileNames : List String :=
  ["reactToSvelte.conf.js", "reactToSvelte.conf.json"]

def find? (files : FileSystem) (directory : Path) : Option Path :=
  (fileNames.map fun name => directory.join (Path.ofString name)).find? files.isFile

def options (config : Config) (filename outputDir : Path) : Options :=
  { filename, outputDir
    aliases := config.aliases
    replacements := config.replacements
    excludedModules := config.excludedModules
    styleSuffix := config.styleSuffix
    style := config.style }

end Config

end Sveltify
