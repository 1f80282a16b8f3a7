import Sveltify.Path

/-! A tree of files as a value. Paths are looked up component by component, as a file system does:
every component but the last must be a directory. -/

namespace Sveltify

inductive Content where
  | text (text : String)
  | binary
deriving DecidableEq, Inhabited

inductive Entry where
  | file (content : Content)
  | directory
deriving DecidableEq, Inhabited

/-- Files and directories by the names that lead to them from the root, and the directory in which
relative paths start. Every directory above an entry exists. -/
structure FileSystem where
  entries : List (List Text × Entry) := []
  workingDirectory : List Text := []
deriving Inhabited

inductive FileError where
  | notFound
  | notDirectory
  | isDirectory
  | exists
  | notText
deriving DecidableEq, Repr, Inhabited

def FileError.message : FileError → String
  | .notFound => "No such file or directory (os error 2)"
  | .notDirectory => "Not a directory (os error 20)"
  | .isDirectory => "Is a directory (os error 21)"
  | .exists => "File exists (os error 17)"
  | .notText => "stream did not contain valid UTF-8"

namespace FileSystem

def ofEntries (workingDirectory : List Text) (entries : List (Path × Entry)) : FileSystem :=
  { entries := entries.map fun (path, entry) => (workingDirectory ++ path.names, entry)
    workingDirectory }

def entryAt (fs : FileSystem) (names : List Text) : Option Entry :=
  match fs.entries.lookup names with
  | some entry => some entry
  | none =>
    if names.isPrefixOf fs.workingDirectory || fs.entries.any fun e => names.isPrefixOf e.1 then
      some .directory
    else none

def follow (fs : FileSystem) : List Text → List Path.Component → Except FileError (List Text)
  | names, [] => .ok names
  | names, c :: rest =>
    match fs.entryAt names with
    | some .directory =>
      match c with
      | .root => follow fs [] rest
      | .current => follow fs names rest
      | .parent => follow fs names.dropLast rest
      | .normal name => follow fs (names ++ [name]) rest
    | some (.file _) => .error .notDirectory
    | none => .error .notFound

def asksDirectory (path : Path) : Bool :=
  Text.endsWith path.text ['/'] || Text.endsWith path.text ['/', '.']

def locate (fs : FileSystem) (path : Path) : Except FileError (List Text × Entry) := do
  if path.text.isEmpty then throw .notFound
  else
    let names ← fs.follow fs.workingDirectory path.components
    match fs.entryAt names with
    | none => throw .notFound
    | some (.file content) =>
      if asksDirectory path then throw .notDirectory else return (names, .file content)
    | some .directory => return (names, .directory)

def exists? (fs : FileSystem) (path : Path) : Bool :=
  (fs.locate path).isOk

def isFile (fs : FileSystem) (path : Path) : Bool :=
  match fs.locate path with
  | .ok (_, .file _) => true
  | _ => false

def isDirectory (fs : FileSystem) (path : Path) : Bool :=
  match fs.locate path with
  | .ok (_, .directory) => true
  | _ => false

def readText (fs : FileSystem) (path : Path) : Except FileError String := do
  match ← fs.locate path with
  | (_, .file (.text text)) => return text
  | (_, .file .binary) => throw .notText
  | (_, .directory) => throw .isDirectory

def filesBelow (fs : FileSystem) (directory : List Text) : List (List Text) :=
  fs.entries.filterMap fun (names, entry) =>
    match entry with
    | .file _ => if directory.isPrefixOf names then some (names.drop directory.length) else none
    | .directory => none

def put (fs : FileSystem) (names : List Text) (content : Content) : FileSystem :=
  let others := fs.entries.filter fun e => e.1 != names
  { fs with entries := others ++ [(names, .file content)] }

def checkDirectory (fs : FileSystem) (names : List Text) : Except FileError Unit :=
  match fs.entryAt names with
  | some .directory => .ok ()
  | some (.file _) => .error .exists
  | none =>
    if (List.range names.length).any fun n =>
        match fs.entryAt (names.take n) with
        | some (.file _) => true
        | _ => false
    then .error .notDirectory
    else .ok ()

def write (fs : FileSystem) (path : Path) (text : String) : Except FileError FileSystem := do
  let names := path.names
  fs.checkDirectory names.dropLast
  match fs.entryAt names with
  | some .directory => throw .isDirectory
  | _ => return fs.put names (.text text)

def changes (before after : FileSystem) : List (List Text × String) :=
  after.entries.filterMap fun (names, entry) =>
    match entry with
    | .file (.text text) => if before.entryAt names == some entry then none else some (names, text)
    | _ => none

end FileSystem

end Sveltify
