import Sveltify.Component.Symbols
import Sveltify.Text.Layout

/-! The generated component as text: a script element, the markup and a style element, a blank line
between two of them, empty ones left out. -/

namespace Sveltify

structure ReviewBlock where
  reason : String
  code : String
deriving DecidableEq, Repr, Inhabited

def ReviewBlock.fenced (block : ReviewBlock) : String :=
  s!"/* ==== MANUAL REVIEW: {block.reason} ==== */\n{block.code}\n/* ==== END MANUAL REVIEW ==== */"

structure ScriptSection where
  svelteImports : List String := []
  imports : List String := []
  moduleCode : List String := []
  declarations : List Declaration := []
  reactive : List String := []
  functions : List String := []
  reviewBlocks : List ReviewBlock := []
deriving Inhabited

namespace ScriptSection

def isEmpty (script : ScriptSection) : Bool :=
  script.svelteImports.isEmpty && script.imports.isEmpty && script.moduleCode.isEmpty &&
    script.declarations.isEmpty && script.reactive.isEmpty && script.functions.isEmpty &&
    script.reviewBlocks.isEmpty

def importLines (script : ScriptSection) : List String :=
  let own := ", ".intercalate script.svelteImports
  let ownLines :=
    if script.svelteImports.isEmpty then [] else ["import \x7b " ++ own ++ " \x7d from 'svelte';"]
  ownLines ++ script.imports

def groups (script : ScriptSection) : List String :=
  let lines := "\n".intercalate
  ([lines script.importLines, lines script.moduleCode,
      lines (script.declarations.map Declaration.line), lines script.reactive] ++
    script.functions ++ script.reviewBlocks.map ReviewBlock.fenced).filter
      (!Text.isBlankText ·.toList)

def element (script : ScriptSection) (typescript : Bool) : String :=
  let opening := if typescript then "<script lang=\"ts\">" else "<script>"
  let body := Text.indent ("\n\n".intercalate script.groups).toList
  s!"{opening}\n{String.ofList body}\n</script>"

end ScriptSection

structure Document where
  script : ScriptSection := {}
  typescript : Bool := false
  markup : String := ""
  style : List String := []
deriving Inhabited

namespace Document

def sections (doc : Document) : List String :=
  (if doc.script.isEmpty then [] else [doc.script.element doc.typescript]) ++
    (if Text.isBlankText doc.markup.toList then [] else [doc.markup]) ++
    (if doc.style.isEmpty then []
      else
        let body := Text.indent ("\n".intercalate doc.style).toList
        [s!"<style>\n{String.ofList body}\n</style>"])

def code (doc : Document) : String :=
  "\n\n".intercalate doc.sections ++ "\n"

end Document

end Sveltify
