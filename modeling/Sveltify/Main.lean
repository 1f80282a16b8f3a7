import Sveltify.Batch.Run

/-! The program: reads the files that a run may need, runs, prints and writes. -/

namespace Sveltify.Program

open Batch

def contentOf (bytes : ByteArray) : Content :=
  match String.fromUTF8? bytes with
  | some text => .text text
  | none => .binary

partial def gather (path : Path) : IO (List (List Text × Entry)) := do
  let place := (← IO.currentDir) / path.toString
  if ← place.isDir then
    let inner ← (← place.readDir).toList.mapM fun entry =>
      gather (path.join (Path.ofString entry.fileName))
    return (path.names, .directory) :: inner.flatten
  else if ← place.pathExists then
    return [(path.names, .file (contentOf (← IO.FS.readBinFile place)))]
  else return []

def placesOf (config : Config) : List Path :=
  config.outputDir.toList ++ config.aliases.map Prod.snd

def gatherAll (directory : Path) (places : List Path) : IO FileSystem := do
  let entries ← places.mapM gather
  return { entries := entries.flatten, workingDirectory := directory.names }

/-- Reads the files that a run may need: those in the directory, those that the arguments name, and
those to which the configuration leads. -/
def snapshot (directory : Path) (arguments : Arguments) : IO FileSystem := do
  let named := arguments.paths ++ arguments.config.toList ++ arguments.outputDir.toList
  let places := directory :: named.map (absoluteIn directory)
  let files ← gatherAll directory places
  match loadConfig files arguments directory with
  | .ok config => gatherAll directory (places ++ placesOf config)
  | .error _ => return files

def store (before after : FileSystem) : IO Unit :=
  (FileSystem.changes before after).forM fun (names, text) => do
    let path := (Path.ofComponents (.root :: names.map .normal)).toString
    match (Path.ofString path).parent? with
    | some parent => IO.FS.createDirAll parent.toString
    | none => pure ()
    IO.FS.writeFile path text

def runOnce (directory : Path) (arguments : List String) : IO Nat := do
  let files ← match Arguments.parse arguments with
    | .ok parsed => snapshot directory parsed
    | .error _ => pure {}
  let outcome := runCommand files directory arguments
  store files outcome.files
  IO.print outcome.printed
  IO.eprint outcome.complaint
  return outcome.exitCode

def componentFiles (files : FileSystem) : List (List Text × Entry) :=
  files.entries.filter fun (names, _) =>
    (names.getLast?.bind fun name => Path.extension? ⟨name⟩).any fun e =>
      componentExtensions.contains (String.ofList e)

partial def watch (directory : Path) (parsed : Arguments) (arguments : List String)
    (before : List (List Text × Entry)) : IO Nat := do
  IO.sleep 1000
  let after := componentFiles (← snapshot directory parsed)
  if after == before then watch directory parsed arguments before
  else
    IO.println "File changed, re-converting...\n"
    let code ← runOnce directory arguments
    if code == brokenOffCode then return code
    watch directory parsed arguments after

def run (directory : Path) (arguments : List String) : IO Nat := do
  match Arguments.parse arguments with
  | .ok parsed =>
    let files ← snapshot directory parsed
    if parsed.watch && (Plan.make files parsed directory).isOk then
      IO.println "Starting watch mode...\n"
      let code ← runOnce directory arguments
      if code == brokenOffCode then return code
      IO.println "Watching for changes... (Ctrl+C to stop)\n"
      watch directory parsed arguments (componentFiles files)
    else runOnce directory arguments
  | .error _ => runOnce directory arguments

end Sveltify.Program

def main (arguments : List String) : IO UInt32 := do
  let directory := Sveltify.Path.ofString (← IO.currentDir).toString
  return (← Sveltify.Program.run directory arguments).toUInt32
