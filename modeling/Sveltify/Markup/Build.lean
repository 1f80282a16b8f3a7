import Sveltify.Component.Part
import Sveltify.Import.Style
import Sveltify.Markup.ClassNames

/-! Building markup from the expression that a component returns. Every node of the expression is
labelled by what it becomes in each place where it may stand: as a body, as an expression among
children, as a child and as an element. -/

namespace Sveltify.Markup

/-- What a node of the source becomes in the places where it may stand. -/
structure Roles where
  part : Part
  body : Conversion (Option (Body Node))
  expression : Nat → Conversion (List Node)
  child : Conversion (List Node)
  element : Bool → Conversion Node
  branches : Conversion (List (Branch Node) × Option (Body Node))

structure Setting where
  source : Source
  style : Option StyleImport

variable (setting : Setting) (tree : Script.Tree Roles)

def codeOf : Conversion Text :=
  render setting.source tree.label.part

def columnAt (offset : Nat) : Conversion Nat := do
  modify (·.cut [offset])
  return setting.source.blockIndent offset

def columnOf : Conversion Nat :=
  columnAt setting tree.span.start

/-! Small decisions. -/

def isNullish : Bool :=
  match tree.unparen.kind with
  | .null => true
  | .bool value => !value
  | .ident name => name == "undefined"
  | _ => false

def negate (test : Text) : Text :=
  if test.all fun c => Text.isWordChar c || c == '.' then '!' :: test
  else "!(".toList ++ test ++ [')']

def tagOf (element : Script.Tree Roles) : Text :=
  match element.kids with
  | .node _ (.jsxOpening _) _ (name :: _) :: _ => setting.source.slice name.span
  | _ => []

def isFragmentTag (tag : Text) : Bool :=
  tag == "Fragment".toList || tag == "React.Fragment".toList

def isComponentTag (tag : Text) : Bool :=
  tag.contains '.' || tag.head?.any Char.isUpper

def isIdentifier : Text → Bool
  | [] => false
  | c :: rest => (Text.isLetter c || c == '_' || c == '$') && rest.all Text.isWordChar

def childrenOf : List (Script.Tree Roles) :=
  match tree.kids with
  | _ :: .node _ .list _ children :: _ => children
  | _ => []

def attributeName : Script.Tree Roles → String
  | .node _ .jsxAttribute _ (.node _ (.word name) _ _ :: _) => name
  | .node _ .jsxAttribute _
      (.node _ .jsxNamespaced _ [.node _ (.word space) _ _, .node _ (.word name) _ _] :: _) =>
    s!"{space}:{name}"
  | _ => ""

def eventDirective? (name : String) : Option (String × String) :=
  (Text.dropPrefix? "on".toList name.toList).bind fun rest =>
    if rest.head?.any Char.isUpper then
      let (event, capture) := match Text.dropSuffix? "Capture".toList rest with
        | some (c :: event) => (c :: event, true)
        | _ => (rest, false)
      let lower := String.ofList (event.map Char.toLower)
      let event := if lower == "doubleclick" then "dblclick" else lower
      some (event, if capture then s!"on:{event}|capture" else s!"on:{event}")
    else none

def isChildren (draft : Draft) (tree : Script.Tree Roles) : Bool :=
  match tree with
  | .node _ (.ident name) _ _ => name == "children" && draft.symbols.isProp "children"
  | _ =>
    tree.memberName? == some "children" &&
      tree.memberObject?.any fun object =>
        object.unparen.isThisMember "props" ||
          (object.unparen.ident?.isSome && object.unparen.ident? == draft.scope.propsBag)

def usesOutsideKey (element : Script.Tree Roles) (name : String) : Bool :=
  let attributes := match element.kids with
    | .node _ (.jsxOpening _) _ (_ :: .node _ .list _ attributes :: _) :: _ => attributes
    | _ => []
  (attributes.any fun a => attributeName a != "key" && a.refersTo name) ||
    (childrenOf element).any (·.refersTo name)

def lastWord (text : Text) : Text :=
  let word := ((text.reverse.dropWhile (!Text.isWordChar ·)).takeWhile Text.isWordChar).reverse
  if word.isEmpty then "items".toList else word

def capitalize : Text → Text
  | [] => []
  | c :: rest => Text.upperChar c ++ rest

/-! Attributes. -/

def reviewExpression (reason : String) : Conversion Node := do
  let marker ← modifyGet Draft.nextMarker
  let code ← renderDedented setting.source tree.label.part
  modify (·.review setting.source s!"{reason} #{marker}" (String.ofList code) tree.span.start)
  return .review marker

def styleClass? (name : String) : Option ClassPiece :=
  setting.style.bind fun style =>
    if style.isPlaceholder name then some (.fixed [])
    else (style.exportedValue? name).map .fixed

def templatePieces : List String → List (Script.Tree Roles) → Conversion (List ClassPiece)
  | [], _ => return []
  | raw :: raws, [] => do
    return .fixed raw.toList :: (← templatePieces raws [])
  | raw :: raws, expression :: rest => do
    let piece ← match expression.unparen.ident?.bind (styleClass? setting) with
      | some piece => pure piece
      | none => do pure (.live (← codeOf setting expression))
    return .fixed raw.toList :: piece :: (← templatePieces raws rest)

def classAttribute (expression : Script.Tree Roles) (leading : Text) :
    Conversion (Option Attribute) := do
  let make := fun value => Attribute.mk .classNames "class" value leading
  match expression.unparen with
  | .node _ (.template raw) _ [.node _ _ _ parts] =>
    return (ClassPiece.compose (← templatePieces setting raw parts)).map make
  | .node _ (.string value) _ _ => return (ClassPiece.compose [.fixed value.toList]).map make
  | .node l (.ident name) s k =>
    let piece ← match styleClass? setting name with
      | some piece => pure piece
      | none => do pure (.live (← codeOf setting (.node l (.ident name) s k)))
    return (ClassPiece.compose [piece]).map make
  | other => return some (make (.expression (← codeOf setting other)))

def refAttribute (expression : Script.Tree Roles) (leading : Text) : Conversion Attribute := do
  let target ← codeOf setting expression
  if isIdentifier target then
    modify (·.withSymbols (·.addRef (String.ofList target)))
    return ⟨.ref, "bind:this", .expression target, leading⟩
  else
    modify (·.report setting.source .manualReview
      "ref that is not a plain variable needs manual review" expression.span.start)
    return ⟨.plain, "ref", .expression target, leading⟩

def renamed (name : String) : String :=
  match name with
  | "htmlFor" => "for"
  | "defaultValue" => "value"
  | "defaultChecked" => "checked"
  | _ => name

inductive GivenValue where
  | expression (tree : Script.Tree Roles)
  | literal (text : Text)
  | missing

def givenValue : Script.Tree Roles → GivenValue
  | .node _ .jsxAttribute _ [_, .node _ .jsxExpression _ [expression]] => .expression expression
  | .node _ .jsxAttribute _ [_, value] =>
    if value.isAbsent then .missing else .literal (setting.source.slice value.span)
  | _ => .missing

def convertValue : GivenValue → Conversion AttributeValue
  | .expression tree => do return .expression (← codeOf setting tree)
  | .literal text => return .literal text
  | .missing => return .none

def convertAttribute (isComponent : Bool) (tree : Script.Tree Roles) (leading : Text) :
    Conversion (Option Attribute) := do
  let name := attributeName tree
  let given := givenValue setting tree
  if name == "className" || name == "class" then
    match given with
    | .expression expression => classAttribute setting expression leading
    | .literal text => return some ⟨.classNames, "class", .literal text, leading⟩
    | .missing => return none
  else
    match given with
    | .expression expression =>
      if name == "ref" && !isComponent then
        return some (← refAttribute setting expression leading)
      else plain name given
    | _ => plain name given
where
  plain (name : String) (given : GivenValue) : Conversion (Option Attribute) := do
    let value ← convertValue setting given
    if isComponent then return some ⟨.plain, name, value, leading⟩
    else
      match eventDirective? name with
      | some (event, directive) => return some ⟨.event event, directive, value, leading⟩
      | none => return some ⟨.plain, renamed name, value, leading⟩

def openingBrace (offset : Nat) : Nat :=
  let before := setting.source.before offset
  let between := before.reverse.takeWhile (· != '\x7b')
  if between.length == before.length then offset else offset - Text.byteSize between - 1

def closingBrace (offset : Nat) : Nat :=
  let after := setting.source.after offset
  let between := after.takeWhile (· != '\x7d')
  if between.length == after.length then offset else offset + Text.byteSize between + 1

def convertAttributes (isComponent stripKey : Bool) :
    Nat → List (Script.Tree Roles) → Conversion (List Attribute × Nat)
  | cursor, [] => return ([], cursor)
  | cursor, tree :: rest =>
    match tree with
    | .node _ .spread span [expression] => do
      modify (·.cut [span.start, expression.span.stop])
      let opening := openingBrace setting span.start
      let leading := setting.source.slice ⟨cursor, opening⟩
      let code ← codeOf setting expression
      let (others, final) ← convertAttributes isComponent stripKey
        (closingBrace setting expression.span.stop) rest
      return (⟨.spread, "", .expression code, leading⟩ :: others, final)
    | _ => do
      let leading := setting.source.slice ⟨cursor, tree.span.start⟩
      let converted ←
        if stripKey && attributeName tree == "key" then pure none
        else convertAttribute setting isComponent tree leading
      let (others, final) ← convertAttributes isComponent stripKey tree.span.stop rest
      return (converted.toList ++ others, final)

/-! Nodes. -/

def convertChildren : List (Script.Tree Roles) → Conversion (List Node)
  | [] => return []
  | tree :: rest => do
    let nodes ← tree.label.child
    return nodes ++ (← convertChildren rest)

def convertElement (element : Script.Tree Roles) (stripKey : Bool) : Conversion Node := do
  match element.kids with
  | .node _ (.jsxOpening selfClosing) openingSpan (name :: attributes :: _) :: _ =>
    let tag := tagOf setting element
    let (converted, cursor) ← convertAttributes setting (isComponentTag tag) stripKey
      name.span.stop attributes.kids
    let tagEnd := openingSpan.stop - (if selfClosing then 2 else 1)
    let tail := setting.source.slice ⟨cursor, max tagEnd cursor⟩
    let beforeClose := if Text.isBlankText tail then tail else []
    let children ← if selfClosing then pure [] else convertChildren (childrenOf element)
    return .element (String.ofList tag) converted children selfClosing beforeClose
  | _ => return .text []

def isBlankChild : Bool :=
  match tree.kind with
  | .jsxText blank => blank
  | _ => false

def Node.mapText (f : Text → Text) : Node → Node
  | .text content => .text (f content)
  | node => node

def mapFirst (f : Node → Node) : List Node → List Node
  | [] => []
  | node :: rest => f node :: rest

def mapLast (f : Node → Node) (nodes : List Node) : List Node :=
  (mapFirst f nodes.reverse).reverse

def leadingAnchor (child : Script.Tree Roles) : Conversion Nat := do
  let start := child.span.start
  match child.kind with
  | .jsxText _ =>
    modify (·.cut [start])
    return start + setting.source.blanksAfter start
  | _ => return start

def fragmentBody (children : List (Script.Tree Roles)) : Conversion (Option (Body Node)) := do
  let inner := Text.dropEndWhile isBlankChild (children.dropWhile isBlankChild)
  match inner with
  | [] => return none
  | first :: _ =>
    let anchor ← leadingAnchor setting first
    let nodes ← convertChildren inner
    let trimmed :=
      mapLast (Node.mapText Text.trimEnd) (mapFirst (Node.mapText Text.trimStart) nodes)
    return some ⟨trimmed, ← columnAt setting anchor⟩

def convertComment (span : Span) : List Node :=
  let inner := Text.trim (Text.dropEndWhile (· == '\x7d')
    ((setting.source.slice span).dropWhile (· == '\x7b')))
  let isMargin := fun c => c == '*' || Text.isBlank c
  match (Text.dropPrefix? "/*".toList inner).bind (Text.dropSuffix? "*/".toList) with
  | some block => [.comment (Text.dropEndWhile isMargin (block.dropWhile isMargin))]
  | none =>
    match Text.dropPrefix? "//".toList inner with
    | some line => [.comment (Text.trim line)]
    | none => []

/-! Iterations. -/

def eachBody (element : Script.Tree Roles) : Conversion (Body Node) := do
  if isFragmentTag (tagOf setting element) then
    return (← fragmentBody setting (childrenOf element)).getD {}
  else return ⟨[← element.label.element true], ← columnOf setting element⟩

structure Callback where
  item : Script.Tree Roles
  index : Option String
  locals : List (Script.Tree Roles)
  element : Script.Tree Roles

def callbackParts? : Script.Tree Roles → Option (List (Script.Tree Roles) × Script.Tree Roles)
  | .node _ (.arrow _) _ (params :: body :: _) => some (params.kids, body)
  | .node _ .functionExpr _ [_, .node _ (.function ..) _ (params :: _ :: body :: _)] =>
    some (params.kids.map fun
      | .node _ .parameter _ [_, pattern] => pattern
      | other => other, body)
  | _ => none

def itemAndIndex? : List (Script.Tree Roles) → Option (Script.Tree Roles × Option String)
  | [item] => some (item, none)
  | [item, index] => index.ident?.map fun name => (item, some name)
  | _ => none

def element? : Option (Script.Tree Roles) :=
  match tree.unparen.kind with
  | .jsxElement => some tree.unparen
  | _ => none

def returned? (item : Script.Tree Roles) (statements : List (Script.Tree Roles)) :
    Option (List (Script.Tree Roles) × Script.Tree Roles) :=
  match statements.getLast? with
  | some (.node _ .return _ [value]) =>
    let locals := statements.dropLast
    let declares := item.ident?.isSome && locals.all fun s => match s.kind with
      | .variableDecl _ => true
      | _ => false
    if locals.isEmpty || declares then (element? value).map (locals, ·) else none
  | _ => none

def callback? (call : Script.Tree Roles) : Option Callback := do
  let argument ← call.arguments.head?
  let (params, body) ← callbackParts? argument.unparen
  let (item, index) ← itemAndIndex? params
  match body with
  | .node _ .block _ statements =>
    let (locals, element) ← returned? item statements
    return ⟨item, index, locals, element⟩
  | _ =>
    if body.isAbsent then none
    else return ⟨item, index, [], ← element? body⟩

def itemText (item : Script.Tree Roles) : Text :=
  match item.ident? with
  | some name => name.toList
  | none => setting.source.slice item.span

def helperStatements : List (Script.Tree Roles) → Conversion Text
  | [] => return []
  | statement :: rest => do
    let text ← renderDedented setting.source statement.label.part
    let lead := spaces 4
    return lead ++ Text.reindent text 0 lead ++ '\n' :: (← helperStatements rest)

def namesInBraces (names : List String) : Text :=
  braced (' ' :: (", ".intercalate names).toList ++ [' '])

def reportShadowing (call : Script.Tree Roles) (locals : List String) : Conversion Unit :=
  locals.forM fun name => do
    if (← get).symbols.contains name then
      modify (·.report setting.source .ambiguousShadowing
        s!"`{name}` declared in the iteration shadows a component variable" call.span.start)

def eachTransformed (call : Script.Tree Roles) (collection : Text) (callback : Callback)
    (base : Nat) : Conversion Node := do
  let item := itemText setting callback.item
  let itemName := String.ofList item
  let locals := callback.locals.flatMap fun statement =>
    statement.kids.flatMap fun declarator =>
      (declarator.kids.head?.map Script.Tree.bindingNames).getD []
  reportShadowing setting call locals
  let helper ← modifyGet (·.helperName ("map" ++ String.ofList (capitalize (lastWord collection))))
  let params := match callback.index with
    | some index => s!"{itemName}, {index}"
    | none => itemName
  let statements ← helperStatements setting callback.locals
  let code :=
    s!"function {helper}(items) \x7b\n  return items.map(({params}) => \x7b\n".toList ++
      statements ++
      "    return ".toList ++ namesInBraces (locals ++ [itemName]) ++ ";\n  \x7d);\n\x7d".toList
  modify (·.review setting.source s!"iteration helper {helper}" (String.ofList code)
    call.span.start)
  let body ← eachBody setting callback.element
  return .iteration (s!"{helper}(".toList ++ collection ++ [')'])
    (namesInBraces (itemName :: locals))
    (callback.index.filter (usesOutsideKey callback.element)) body base

def convertIteration? (call : Script.Tree Roles) (base : Nat) : Conversion (Option Node) := do
  match call.calleeMember?.bind Script.Tree.memberObject?, callback? call with
  | some object, some callback =>
    let collection ← codeOf setting object
    if callback.locals.isEmpty then
      let body ← eachBody setting callback.element
      return some (.iteration collection (itemText setting callback.item)
        (callback.index.filter (usesOutsideKey callback.element)) body base)
    else return some (← eachTransformed setting call collection callback base)
  | _, _ => return none

/-! The roles of every node. -/

/-- What a conditional is made of: a test without a first branch is negated, and a conditional in
the place of the second branch adds its branches. -/
def convertBranches (test yes no : Script.Tree Roles) :
    Conversion (List (Branch Node) × Option (Body Node)) := do
  let code ← codeOf setting test
  if isNullish yes then
    match ← no.unparen.label.body with
    | some body => return ([⟨negate code, body⟩], none)
    | none => return ([], none)
  else
    let body := (← yes.unparen.label.body).getD {}
    match no.unparen.kind with
    | .conditional =>
      let (branches, otherwise) ← no.unparen.label.branches
      return (⟨code, body⟩ :: branches, otherwise)
    | _ => return ([⟨code, body⟩], ← no.unparen.label.body)

def convertExpression (base : Nat) : Conversion (List Node) := do
  if isChildren (← get) tree then
    modify fun d => { d with usesSlot := true }
    return [.slot]
  else
    match tree.kind, tree.kids with
    | .jsxElement, _ =>
      if isFragmentTag (tagOf setting tree) then convertChildren (childrenOf tree)
      else return [← convertElement setting tree false]
    | .jsxFragment, _ => convertChildren (childrenOf tree)
    | .binary "&&", [left, right] =>
      if right.containsMarkup then
        let test ← codeOf setting left
        match ← right.unparen.label.body with
        | some body => return [.conditional [⟨test, body⟩] none base]
        | none => return []
      else other
    | .conditional, [test, yes, no] =>
      if tree.containsMarkup then
        let (branches, otherwise) ← convertBranches setting test yes no
        if branches.isEmpty then return []
        else return [.conditional branches otherwise base]
      else other
    | .call, _ =>
      if tree.calleeMember?.any (·.memberName? == some "map") then
        match ← convertIteration? setting tree base with
        | some node => return [node]
        | none => return [← reviewExpression setting tree "markup expression"]
      else other
    | _, _ => other
where
  other : Conversion (List Node) := do
    if tree.containsMarkup then return [← reviewExpression setting tree "markup expression"]
    else return [.expression (← codeOf setting tree)]

def convertBody : Conversion (Option (Body Node)) := do
  if isNullish tree then return none
  else
    match tree.kind with
    | .jsxElement =>
      if isFragmentTag (tagOf setting tree) then fragmentBody setting (childrenOf tree)
      else return some ⟨[← convertElement setting tree false], ← columnOf setting tree⟩
    | .jsxFragment => fragmentBody setting (childrenOf tree)
    | _ =>
      let column ← columnOf setting tree
      return some ⟨← convertExpression setting tree column, column⟩

def convertChild : Conversion (List Node) := do
  match tree.kind, tree.kids with
  | .jsxText _, _ => return [.text (setting.source.slice tree.span)]
  | .jsxExpression, [.node _ .jsxEmpty _ _] => return convertComment setting tree.span
  | .jsxExpression, [expression] => do
    expression.unparen.label.expression (← columnOf setting tree)
  | .jsxElement, _ =>
    if isFragmentTag (tagOf setting tree) then convertChildren (childrenOf tree)
    else return [← convertElement setting tree false]
  | .jsxFragment, _ => convertChildren (childrenOf tree)
  | .jsxSpreadChild, [expression] =>
    return [← reviewExpression setting expression "spread children"]
  | _, _ => return []

def roles (part : Part) (kids : List (Script.Tree Roles)) : Roles :=
  let none : Roles := {
    part
    body := return Option.none
    expression := fun _ => return []
    child := return []
    element := fun _ => return .text []
    branches := return ([], Option.none) }
  let tree : Script.Tree Roles := .node none part.kind part.span kids
  { part
    body := convertBody setting tree
    expression := convertExpression setting tree
    child := convertChild setting tree
    element := convertElement setting tree
    branches := match kids with
      | [test, yes, no] => convertBranches setting test yes no
      | _ => return ([], Option.none) }

def build (root : Part) : Conversion Text := do
  let tree := root.relabel (roles setting)
  match ← tree.unparen.label.body with
  | some body => return Text.trimEnd (Text.reindent (writeAll body.nodes) body.indent [])
  | none => return []

end Sveltify.Markup
