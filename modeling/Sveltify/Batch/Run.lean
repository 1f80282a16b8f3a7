import Sveltify.Batch.Arguments
import Sveltify.Batch.Discovery
import Sveltify.Config.Basic
import Sveltify.Convert

/-! A run over many components: all files are converted first, and then written in order. -/

namespace Sveltify.Batch

inductive PlanError where
  | config (error : Config.Error)
  | invalidGlob
deriving Inhabited

structure Plan where
  config : Config
  outputDir : Path
  paths : List Path
  discovery : Discovery
  dryRun : Bool
  format : Format

def absoluteIn (directory : Path) (path : String) : Path :=
  (directory.join (Path.ofString path)).normalize

def loadConfig (files : FileSystem) (arguments : Arguments) (directory : Path) :
    Except Config.Error Config :=
  match arguments.config with
  | some path => Config.load files (absoluteIn directory path)
  | none =>
    match Config.find? files directory with
    | some path => Config.load files path
    | none => .ok {}

def chooseOutput (config : Config) (arguments : Arguments) (directory : Path) :
    Except Config.Error Path :=
  match arguments.outputDir with
  | some path => .ok (absoluteIn directory path)
  | none =>
    match config.outputDir with
    | some path => .ok path
    | none => .error .missingOutput

def Plan.make (files : FileSystem) (arguments : Arguments) (directory : Path) :
    Except PlanError Plan := do
  let config ← (loadConfig files arguments directory).mapError .config
  let outputDir ← (chooseOutput config arguments directory).mapError .config
  match Discovery.make? (config.ignore ++ arguments.ignore) config.styleSuffix with
  | none => throw .invalidGlob
  | some discovery =>
    let paths := if arguments.paths.isEmpty then [directory]
      else arguments.paths.map (absoluteIn directory)
    return { config, outputDir, paths, discovery
             dryRun := arguments.dryRun
             format := arguments.format.getD .human }

def errorText : ConversionError → String
  | .unreadableStyle path cause =>
    (ConversionError.unreadableStyle path cause).message ++ ": " ++ cause
  | e => e.message

structure Breakdown where
  source : Path
  offset : Nat

def convertFile (plan : Plan) (files : FileSystem) (file : SourceFile) :
    Except Breakdown Report :=
  match files.readText file.path with
  | .error e =>
    return { source := file.path, status := .failed
             error := some ("failed to read file: " ++ e.message) }
  | .ok text =>
    match convert files text (plan.config.options file.path plan.outputDir) with
    | .ok c =>
      return { source := file.path, status := .converted, component := some c.componentName
               output := some c.outputPath, diagnostics := c.diagnostics, code := some c.code }
    | .error (.insideCharacter offset) => throw ⟨file.path, offset⟩
    | .error (.noComponent filename) =>
      return if file.explicit then
        { source := file.path, status := .failed
          error := some (ConversionError.noComponent filename).message }
      else { source := file.path, status := .skipped }
    | .error e => return { source := file.path, status := .failed, error := some (errorText e) }

def duplicateFinding (output earlier : Path) : Diagnostic :=
  ⟨.duplicateOutput,
    output.toString ++ " is also generated from " ++ earlier.toString ++
      " and will be overwritten", 1, 1⟩

/-- Adds a finding to every report whose output an earlier one has, too. `seen` holds the outputs
and sources before, the last one first. -/
def flagDuplicates : (seen : List (Path × Path)) → List Report → List Report
  | _, [] => []
  | seen, report :: rest =>
    match report.output with
    | none => report :: flagDuplicates seen rest
    | some output =>
      let flagged := match seen.find? fun entry => entry.1.same output with
        | some (_, earlier) =>
          { report with diagnostics := report.diagnostics ++ [duplicateFinding output earlier] }
        | none => report
      flagged :: flagDuplicates ((output, report.source) :: seen) rest

def writeReport (files : FileSystem) (report : Report) : FileSystem × Report :=
  match report.output, report.code with
  | some path, some code =>
    match files.write path code with
    | .ok files => (files, { report with status := .written, code := none })
    | .error e =>
      (files, { report with
        status := .failed
        error := some ("failed to write " ++ path.toString ++ ": " ++ e.message)
        code := none })
  | _, _ => (files, report)

def writeAll : FileSystem → List Report → FileSystem × List Report
  | files, [] => (files, [])
  | files, report :: rest =>
    let (files, report) := writeReport files report
    let (files, rest) := writeAll files rest
    (files, report :: rest)

structure Result where
  files : FileSystem
  reports : List Report
  summary : Summary
  text : String

/-- Finds, converts and writes the components. A run that breaks off at one of them writes none. -/
def Plan.run (plan : Plan) (files : FileSystem) : Except Breakdown Result := do
  let found := plan.discovery.discover files plan.paths
  let converted ← found.mapM (convertFile plan files)
  let reports := flagDuplicates [] converted
  let (files, reports) := if plan.dryRun then (files, reports) else writeAll files reports
  let summary := Summary.ofReports reports
  return { files, reports, summary, text := plan.format.write reports summary }

def versionText : String :=
  "react-to-svelte 0.3.0\n"

def helpText : String :=
  "Convert React components into Svelte single-file components\n\n" ++
  "Usage: react-to-svelte [OPTIONS] [PATHS]...\n\n" ++
  "Arguments:\n" ++
  "  [PATHS]...  Component files or directories to convert (default: current directory)\n\n" ++
  "Options:\n" ++
  "  -c, --config <CONFIG>          Path to the config file (default: reactToSvelte.conf.js or " ++
  ".json in the working directory)\n" ++
  "  -o, --output-dir <OUTPUT_DIR>  Directory generated components are written to (overrides " ++
  "`outputPath`)\n" ++
  "      --output <OUTPUT>          Output format [default: human] " ++
  "[possible values: human, json]\n" ++
  "      --dry-run                  Print the generated components instead of writing them\n" ++
  "      --ignore <IGNORE>          Glob patterns to ignore\n" ++
  "      --watch                    Watch mode\n" ++
  "  -v, --verbose                  Verbose logging\n" ++
  "  -h, --help                     Print help\n" ++
  "  -V, --version                  Print version\n"

def PlanError.message : PlanError → String
  | .config error => error.message
  | .invalidGlob => "invalid glob pattern"

structure Outcome where
  exitCode : Nat
  printed : String := ""
  complaint : String := ""
  files : FileSystem

def brokenOffCode : Nat := 101

def runCommand (files : FileSystem) (directory : Path) (arguments : List String) : Outcome :=
  match Arguments.parse arguments with
  | .error .displayHelp => { exitCode := 0, printed := helpText, files }
  | .error .displayVersion => { exitCode := 0, printed := versionText, files }
  | .error _ =>
    { exitCode := 2, complaint := "error: wrong usage, see '--help'\n", files }
  | .ok parsed =>
    match Plan.make files parsed directory with
    | .error error =>
      { exitCode := 1, complaint := "Error: " ++ error.message ++ "\n", files }
    | .ok plan =>
      match plan.run files with
      | .error breakdown =>
        { exitCode := brokenOffCode
          complaint := (ConversionError.insideCharacter breakdown.offset).message ++ "\n", files }
      | .ok result =>
        { exitCode := if 0 < result.summary.failed then 1 else 0
          printed := result.text
          files := result.files }

end Sveltify.Batch
