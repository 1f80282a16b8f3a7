import Sveltify.Component.Class
import Sveltify.Import.Process
import Sveltify.Markup.Build

/-! Conversion of a whole component. -/

namespace Sveltify

open Script (Node)

structure Converted where
  componentName : String
  outputPath : Path
  code : String
  diagnostics : List Diagnostic

def startsWithWord (name text : Text) : Bool :=
  match Text.dropPrefix? name text with
  | some rest => !rest.head?.any Text.isWordChar
  | none => false

/-- The name occurs in the text as a whole word. Occurrences are looked for from left to right, each
after the end of the one before; `before` is the last character passed, and `skip` counts the
characters of the last occurrence that are still to be passed. -/
def mentionsFrom (name : Text) : (before : Option Char) → (skip : Nat) → Text → Bool
  | _, _, [] => false
  | _, skip + 1, c :: rest => mentionsFrom name (some c) skip rest
  | before, 0, c :: rest =>
    if (Text.dropPrefix? name (c :: rest)).isSome then
      (!before.any Text.isWordChar && startsWithWord name (c :: rest)) ||
        mentionsFrom name (some c) (name.length - 1) rest
    else mentionsFrom name (some c) 0 rest

def mentions (text name : Text) : Bool :=
  mentionsFrom name none 0 text

def Draft.mentions (d : Draft) (name : String) : Bool :=
  let declared := (d.symbols.propDeclarations ++ d.symbols.internalDeclarations).filterMap (·.value)
  (d.moduleCode ++ d.reactive ++ d.functions ++ d.reviewBlocks.map (·.code) ++ declared).any
    fun text => Sveltify.mentions text.toList name.toList

def declareStyleConstants (source : Source) (style : StyleImport) (markup : Text) :
    Conversion Unit :=
  style.named.forM fun (name, exported) => do
    if mentions markup name.toList || (← get).mentions name then
      match style.exportedValue? name with
      | some value => modify (·.withSymbols (·.addStyleConstant name (String.ofList value)))
      | none =>
        modify (·.report source .unresolvedImport
          s!"`{exported}` is not exported with a literal value by \"{style.specifier}\""
          style.offset)

def dropChildrenProp : Conversion Unit :=
  modify fun d =>
    if d.usesSlot && !d.mentions "children" then d.withSymbols (·.removeProp "children") else d

def convertItems (setting : Markup.Setting) (items : List Part)
    (component : LocatedComponent Visit) : Conversion Text := do
  let source := setting.source
  let numbered := items.zipIdx
  let statics ← convertStatics source component.name numbered
  convertModuleCode source (component.items ++ statics) numbered
  let markup ← match ← convertComponent source component.source with
    | some root => Markup.build setting root
    | none => pure []
  dropChildrenProp
  setting.style.forM fun style => declareStyleConstants source style markup
  return markup

def documentOf (draft : Draft) (imports : ImportOutcome) (language : Script.Language)
    (markup : Text) : Document :=
  { script := {
      svelteImports := draft.helpers
      imports := imports.kept.map String.ofList
      moduleCode := draft.moduleCode
      declarations := draft.symbols.propDeclarations ++ draft.symbols.internalDeclarations
      reactive := draft.reactive
      functions := draft.functions
      reviewBlocks := draft.reviewBlocks }
    typescript := language == .typescript
    markup := String.ofList markup
    style := (imports.style.map fun style => style.sheet.lines.map String.ofList).getD [] }

def readComponent (text : Text) (filename : String) : Except ConversionError Node :=
  match Script.parse (Script.Dialect.ofFilename filename true) text with
  | .ok parsed => if parsed.faulty then .error (.notScript filename) else .ok parsed.module
  | .error _ => .error (.notScript filename)

/-- Converts a component. A source that is cut inside a character ends the conversion. -/
def convert (files : FileSystem) (text : String) (options : Options) :
    Except ConversionError Converted := do
  let filename := options.filename.toString
  let source := Source.ofString text
  let module ← readComponent source.text filename
  let imports ← processImports ⟨files, source, options⟩ module.kids
  let items := module.kids.map (Part.ofNode source)
  match locateComponent? items with
  | none => throw (.noComponent filename)
  | some component =>
    let setting : Markup.Setting := ⟨source, imports.style⟩
    let (markup, draft) := (convertItems setting items component).run {}
    if let some offset := draft.cuts.find? (!source.isBoundary ·) then
      throw (.insideCharacter offset)
    let document := documentOf draft imports (Script.Language.ofFilename filename) markup
    let name := componentName options.filename
    return {
      componentName := name
      outputPath := options.outputDir.join (Path.ofString s!"{name}.svelte")
      code := document.code
      diagnostics := imports.diagnostics ++ draft.diagnostics }

end Sveltify
