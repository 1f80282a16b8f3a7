import Sveltify.Script.Parse
import Sveltify.Source.Basic
import Sveltify.Style.Compile

/-! Style modules as scripts: literal constants, and a tagged template that is the default export,
is called by the default export, or comes first. -/

namespace Sveltify.Style

open Script (Node)

def literalValue? (source : Source) (node : Node) : Option Text :=
  match node.unparen with
  | .of (.string value) _ _ => some value.toList
  | .of (.number _ _) span _ => some (source.slice span)
  | .of (.template raw) _ [.of _ _ []] => some (raw.map String.toList).flatten
  | _ => none

def isStyleTag : Node → Bool
  | .of (.ident name) _ _ => name == "css"
  | .of .member _ [_, .of (.word name) _ _] => name == "css"
  | _ => false

def Reference.ofNode (source : Source) (node : Node) : Reference :=
  match node.unparen with
  | .of (.ident name) _ _ => .named name
  | other => .unsupported (source.sliceString other.span)

def Template.ofNode? (source : Source) (node : Node) : Option Template :=
  match node.unparen with
  | .of .taggedTemplate _ [tag, _, .of (.template raw) _ [parts]] =>
    if isStyleTag tag then
      some ⟨raw.map String.toList, parts.kids.map (Reference.ofNode source)⟩
    else none
  | _ => none

structure Outline where
  constants : Table Variable := []
  named : Table Template := []
  first : Option Template := none
  default : Option Template := none
  defaultName : Option String := none
  exportedAs : List (String × String) := []
deriving Inhabited

namespace Outline

def declare (source : Source) (exported : Bool) (o : Outline) (declarator : Node) : Outline :=
  match declarator.kids with
  | [.of (.ident name) _ _, value] =>
    if value.isAbsent then o
    else
      match value.unparen.kind with
      | .taggedTemplate =>
        match Template.ofNode? source value with
        | some template =>
          { o with first := o.first <|> some template, named := o.named.insert name template }
        | none => o
      | _ =>
        match literalValue? source value with
        | some text => { o with constants := o.constants.insert name ⟨text, exported⟩ }
        | none => o
  | _ => o

def exportName : Node → String
  | .of (.ident name) _ _ => name
  | .of (.string value) _ _ => value
  | _ => ""

def listExport (o : Outline) (specifier : Node) : Outline :=
  match specifier with
  | .of .exportSpecifier _ [name, exported] =>
    let inner := exportName name
    let outer := (exported.present?.map exportName).getD inner
    { o with exportedAs := o.exportedAs ++ [(inner, outer)] }
  | _ => o

def item (source : Source) (o : Outline) : Node → Outline
  | .of (.variableDecl _) _ declarators => declarators.foldl (declare source false) o
  | .of .exportDecl _ [.of (.variableDecl _) _ declarators] =>
    declarators.foldl (declare source true) o
  | .of .exportDefaultExpr _ [value] =>
    match Template.ofNode? source value, value.unparen with
    | some template, _ => { o with default := some template }
    | none, .of (.ident name) _ _ => { o with defaultName := some name }
    | none, _ => o
  | .of .exportNamed _ [specifiers, origin] =>
    if origin.isAbsent then specifiers.kids.foldl listExport o else o
  | _ => o

def exportAs (constants : Table Variable) (entry : String × String) : Table Variable :=
  match constants.get? entry.1 with
  | none => constants
  | some v => constants.insert entry.2 { v with exported := true }

def template? (o : Outline) : Option Template :=
  o.default <|> o.defaultName.bind o.named.get? <|> o.first

end Outline

def Module.parse (text : String) (filename : String) : Except Error Module :=
  let source := Source.ofString text
  match Script.parse (Script.Dialect.ofFilename filename false) source.text with
  | .error _ => .error (.notScript filename)
  | .ok parsed =>
    let outline := parsed.module.kids.foldl (Outline.item source) {}
    match outline.template? with
    | none => .error (.missingTemplate filename)
    | some template =>
      .ok ⟨outline.exportedAs.foldl Outline.exportAs outline.constants, template⟩

def compile (text : String) (options : Options) : Except Error Sheet := do
  compileModule (← Module.parse text options.filename) options

end Sveltify.Style
