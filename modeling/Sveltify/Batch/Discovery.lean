import Sveltify.FileSystem
import Sveltify.Pattern.Glob

/-! Which files of a tree are taken for components. -/

namespace Sveltify.Batch

structure SourceFile where
  path : Path
  /-- The file was named, and not found in a directory. A named file must hold a component. -/
  explicit : Bool
deriving DecidableEq, Inhabited

def componentExtensions : List String :=
  ["js", "jsx", "ts", "tsx"]

def defaultIgnore : List String :=
  ["**/node_modules/**", "**/dist/**", "**/__tests__/**", "**/*.test.*", "**/*.spec.*",
    "**/*.stories.*", "**/*.d.ts"]

structure Discovery where
  ignore : List (List Pattern.Glob.Token)
  styleSuffix : String

/-- A stem that belongs to a style module; an empty suffix belongs to none. -/
def isStyleStem (suffix : String) (stem : Text) : Bool :=
  !suffix.isEmpty && Text.endsWith stem suffix.toList

namespace Discovery

def make? (patterns : List String) (styleSuffix : String) : Option Discovery :=
  ((patterns ++ defaultIgnore).mapM fun p => Pattern.Glob.parse? p.toList).map (⟨·, styleSuffix⟩)

def isCandidate (d : Discovery) (relative : Path) : Bool :=
  let extended := relative.extension?.any fun e => componentExtensions.contains (String.ofList e)
  let ignored := d.ignore.any fun pattern => Pattern.Glob.matches? pattern relative.text
  let style := relative.fileStem?.any (isStyleStem d.styleSuffix)
  extended && !ignored && !style

def walk (d : Discovery) (files : FileSystem) (directory : Path) : List Path :=
  match files.locate directory with
  | .ok (names, .directory) =>
    let relative := (files.filesBelow names).map fun names =>
      Path.ofComponents (names.map .normal)
    (relative.filter d.isCandidate).map directory.join
  | _ => []

def expand (d : Discovery) (files : FileSystem) (path : Path) : List SourceFile :=
  if files.isDirectory path then (d.walk files path).map (⟨·, false⟩) else [⟨path, true⟩]

def notAfter (a b : SourceFile) : Bool :=
  match a.path.order b.path with
  | .lt => true
  | .eq => !a.explicit || b.explicit
  | .gt => false

def mergeSame : List SourceFile → List SourceFile
  | [] => []
  | a :: rest =>
    match mergeSame rest with
    | [] => [a]
    | b :: merged =>
      if a.path.same b.path then { a with explicit := a.explicit || b.explicit } :: merged
      else a :: b :: merged

def discover (d : Discovery) (files : FileSystem) (paths : List Path) : List SourceFile :=
  mergeSame ((paths.flatMap (d.expand files)).mergeSort notAfter)

end Discovery

end Sveltify.Batch
