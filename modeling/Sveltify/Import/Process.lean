import Sveltify.Component.Draft
import Sveltify.FileSystem
import Sveltify.Import.Style
import Sveltify.Options
import Sveltify.Source.Edits

/-! The imports of a component: those of excluded modules are dropped, one of a style module is
consumed, and all others are kept with their paths changed. -/

namespace Sveltify

open Script (Node)

inductive ConversionError where
  | notScript (filename : String)
  | unreadableStyle (path cause : String)
  | style (error : Style.Error)
  | noComponent (filename : String)
  | twoStyleModules (component first second : String)
  /-- The source was to be cut inside a character, where the whole run breaks off. -/
  | insideCharacter (offset : Nat)
deriving DecidableEq, Repr, Inhabited

def ConversionError.message : ConversionError → String
  | .notScript filename => s!"failed to parse {filename}"
  | .unreadableStyle path _ => s!"failed to read style module {path}"
  | .style error => error.message
  | .noComponent filename => s!"no component found in {filename}"
  | .twoStyleModules component first second =>
    s!"{component} imports more than one style module (`{first}` and `{second}`)"
  | .insideCharacter offset => s!"byte index {offset} is not a char boundary"

def importEndings : List String :=
  ["", ".js", ".jsx", ".ts", ".tsx", ".svelte", "/index.js"]

def styleEndings : List String :=
  ["", ".js", ".ts", ".jsx", ".tsx", "/index.js"]

def withEndings (path : Path) (endings : List String) : List Path :=
  endings.map fun ending => ⟨path.text ++ ending.toList⟩

def isExcluded (excluded : List String) (specifier : Text) : Bool :=
  excluded.any fun name =>
    match Text.dropPrefix? name.toList specifier with
    | some [] => true
    | some (c :: _) => c == '/'
    | none => false

inductive Binding where
  | whole (name : String)
  | named (name exported : String)
deriving DecidableEq, Repr, Inhabited

def Binding.ofNode? : Node → Option Binding
  | .of .importDefault _ [.of (.ident name) _ _] => some (.whole name)
  | .of .importNamespace _ [.of (.ident name) _ _] => some (.whole name)
  | .of .importNamed _ [.of (.ident name) _ _, imported] =>
    match imported.kind with
    | .ident exported | .string exported => some (.named name exported)
    | _ => some (.named name name)
  | _ => none

structure ImportDeclaration where
  specifier : Text
  specifierSpan : Span
  bindings : List Binding
  span : Span

def ImportDeclaration.ofNode? : Node → Option ImportDeclaration
  | .of .import span [specifiers, .of (.string value) valueSpan _] =>
    some ⟨value.toList, valueSpan, specifiers.kids.filterMap Binding.ofNode?, span⟩
  | _ => none

structure ImportSetting where
  files : FileSystem
  source : Source
  options : Options

namespace ImportSetting

variable (s : ImportSetting)

def styleBase (specifier : Text) : Path :=
  if specifier.head? == some '.' then
    (s.options.filename.parent?.getD Path.empty).join ⟨specifier⟩
  else (s.options.aliases.target? specifier).getD ⟨specifier⟩

def loadStyle (declaration : ImportDeclaration) : Except ConversionError StyleImport := do
  let base := s.styleBase declaration.specifier
  match (withEndings base styleEndings).find? s.files.isFile with
  | none => throw (.unreadableStyle base.toString "no such style module")
  | some path =>
    match s.files.readText path with
    | .error e => throw (.unreadableStyle path.toString e.message)
    | .ok text =>
      let compiled : Except Style.Error (Style.Module × Style.Sheet) := do
        let module ← Style.Module.parse text path.toString
        return (module, ← Style.compileModule module
          { s.options.style with filename := path.toString })
      match compiled with
      | .error e => throw (.style e)
      | .ok (module, sheet) =>
        return {
          specifier := String.ofList declaration.specifier
          placeholder := (declaration.bindings.filterMap fun
            | .whole name => some name
            | .named .. => none).getLast?
          named := declaration.bindings.filterMap fun
            | .whole _ => none
            | .named name exported => some (name, exported)
          module, sheet
          offset := declaration.span.start }

def unresolved? (declaration : ImportDeclaration) (path : Text) : Option Diagnostic :=
  let target := (s.options.outputDir.join ⟨path⟩).normalize
  if (withEndings target importEndings).any s.files.exists? then none
  else
    let name := componentName s.options.filename
    let (line, column) := s.source.lineColumn declaration.specifierSpan.start
    some ⟨.unresolvedImport,
      s!"\"{name}\" won't be able to access \"{target.toString}\"", line, column⟩

def withPath (declaration : ImportDeclaration) (path : Text) : Text :=
  let quote := match s.source.slice declaration.specifierSpan with
    | '"' :: _ => '"'
    | _ => '\''
  (EditSet.empty.replace declaration.specifierSpan (quote :: path ++ [quote])).render s.source
    declaration.span

def isStylePath (path : Text) : Bool :=
  Text.endsWith path s.options.styleSuffix.toList

end ImportSetting

structure ImportOutcome where
  kept : List Text := []
  style : Option StyleImport := none
  diagnostics : List Diagnostic := []

def ImportOutcome.add (s : ImportSetting) (outcome : ImportOutcome)
    (declaration : ImportDeclaration) : Except ConversionError ImportOutcome := do
  let specifier := declaration.specifier
  if isExcluded s.options.excludedModules specifier then return outcome
  else
    let redirected := redirect? s.options.replacements s.options.aliases s.options.outputDir
      specifier
    if s.isStylePath specifier || redirected.any s.isStylePath then
      match outcome.style with
      | some first =>
        throw (.twoStyleModules (componentName s.options.filename) first.specifier
          (String.ofList specifier))
      | none => return { outcome with style := some (← s.loadStyle declaration) }
    else
      match redirected with
      | some path =>
        return { outcome with
          kept := outcome.kept ++ [s.withPath declaration path]
          diagnostics := outcome.diagnostics ++ (s.unresolved? declaration path).toList }
      | none =>
        return { outcome with kept := outcome.kept ++ [s.source.slice declaration.span] }

def processImports (s : ImportSetting) (items : List Node) :
    Except ConversionError ImportOutcome :=
  (items.filterMap ImportDeclaration.ofNode?).foldlM (ImportOutcome.add s) {}

end Sveltify
