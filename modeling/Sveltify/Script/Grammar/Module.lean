import Sveltify.Script.Grammar.Statement

/-! Imports, exports and whole modules. -/

namespace Sveltify.Script.Grammar

variable [Subject] (rules : Rules)

def moduleName : Reader Node := do
  match (← peek).lexeme with
  | .string _ => stringLiteral
  | _ => return (← anyWord).ident

def importAttributes : Reader Unit := do
  let asserted := (← atWord "assert") && !(← atNewline)
  if (← atWord "with") || asserted then
    let _ ← next
    let _ ← primary rules

def moduleSource : Reader Node := do
  expectWord "from"
  let source ← stringLiteral
  importAttributes rules
  return source

/-- A name in braces, as it is given away and as it is called on this side, with whether the word
`type` stands before it. -/
structure NamePair where
  name : Node
  asName : Node
  typed : Bool := false

/-- The names after the word `type`, which is one of them if no other word follows it: only the
second of two words `as` after it can say that the third word is another name. -/
def typedNames (mark : Node) (asName : Reader Node) : Reader NamePair := do
  let name ← moduleName
  if name.ident? != some "as" then
    let other ← partIf (← eatWord "as") asName
    return { name, asName := other, typed := true }
  else if !(← atAnyWord) then return { name, asName := ← absent, typed := true }
  else
    let first ← asName
    if first.ident? == some "as" && (← atAnyWord) then
      return { name, asName := ← asName, typed := true }
    else return { name := mark, asName := first }

def namePair (asName : Reader Node) : Reader NamePair := do
  let name ← moduleName
  let mark := match name.kind with
    | .ident "type" => true
    | _ => false
  if (← typescript) && mark && (← atAnyWord) then typedNames name asName
  else return { name, asName := ← partIf (← eatWord "as") asName }

def importSpecifier (typed : Bool) : Reader Node := do
  let start ← offset
  let pair ← namePair binding
  faultIf (typed && pair.typed)
  if pair.asName.isAbsent then
    match pair.name.kind with
    | .ident _ => close .importNamed start [pair.name, pair.asName]
    | _ => unexpected
  else close .importNamed start [pair.asName, pair.name]

def importList (typed : Bool) : Reader (List Node) := do
  let start ← offset
  if ← eat "*" then
    expectWord "as"
    let name ← binding
    return [← close .importNamespace start [name]]
  else if ← eat "\x7b" then commaList "\x7d" (importSpecifier typed)
  else return []

def aliasSource : Reader Node := do
  if (← atWord "require") && (← peekSecond).lexeme == .punct "(" then
    let _ ← next
    expect "("
    let source ← stringLiteral
    expect ")"
    return source
  else entityName

def importAlias (start : Place) (name : Node) : Reader Node := do
  expect "="
  let _ ← aliasSource
  semicolon
  close .typeExport start [name]

structure ImportHead where
  default : Option Node
  typed : Bool := false

def typedHead (word : Node) : Reader ImportHead := do
  let second := (← peekSecond).lexeme
  if (← atPunct "\x7b") || (← atPunct "*") then return { default := none, typed := true }
  else if ← atIdentifier then
    if !(← atWord "from") || second == .word "from" false || second == .punct "=" then
      return { default := ← binding, typed := true }
    else return { default := word }
  else return { default := word }

def phasedHead (word : Node) : Reader ImportHead := do
  let second := (← peekSecond).lexeme
  if (← atPunct "\x7b") || (← atPunct "*") then return { default := none }
  else if (← atIdentifier) && (!(← atWord "from") || second == .word "from" false) then
    return { default := ← binding }
  else return { default := word }

def importHead : Reader ImportHead := do
  if ← atIdentifier then
    let word ← binding
    match word.ident? with
    | some "type" => if ← typescript then typedHead word else return { default := word }
    | some "source" | some "defer" => phasedHead word
    | _ => return { default := word }
  else return { default := none }

def importDeclaration (start : Place) : Reader Node := do
  expectWord "import"
  match (← peek).lexeme with
  | .string _ =>
    let source ← stringLiteral
    importAttributes rules
    semicolon
    close .import start [← listOf [], source]
  | _ =>
    let head ← importHead
    match head.default with
    | some name =>
      if (← typescript) && (← atPunct "=") then importAlias start name
      else
        let default := Node.of .importDefault name.span [name]
        let others ← if ← eat "," then importList head.typed else pure []
        finish start (default :: others)
    | none => finish start (← importList head.typed)
where
  finish (start : Place) (specifiers : List Node) : Reader Node := do
    let list ← listOf specifiers
    let source ← moduleSource rules
    semicolon
    close .import start [list, source]

def exportSpecifier (typed : Bool) : Reader Node := do
  let start ← offset
  let pair ← namePair moduleName
  faultIf (typed && pair.typed)
  close .exportSpecifier start [pair.name, pair.asName]

def isForeign (specifier : Node) : Bool :=
  match (specifier.kid 0).kind with
  | .ident name => reservedWords.contains name
  | _ => true

def exportNames (start : Place) (typed : Bool) : Reader Node := do
  expect "\x7b"
  let nodes ← commaList "\x7d" (exportSpecifier typed)
  let specifiers ← listOf nodes
  let source ← partIf (← atWord "from") (moduleSource rules)
  faultIf (source.isAbsent && nodes.any isForeign)
  semicolon
  close .exportNamed start [specifiers, source]

def exportAll (start : Place) : Reader Node := do
  let star ← offset
  expect "*"
  if ← eatWord "as" then
    let name ← moduleName
    let specifier ← close .exportNamespace star [name]
    let source ← moduleSource rules
    semicolon
    close .exportNamed start [← listOf [specifier], source]
  else
    let source ← moduleSource rules
    semicolon
    close .exportAll start [source]

def exportDefault (start : Place) : Reader Node := do
  expectWord "default"
  let token ← peek
  let second ← peekSecond
  let typed ← typescript
  let decorations ← decorators rules
  let abstract := typed && (← atWord "abstract") && (← peekSecond).lexeme == .word "class" false
  if abstract then
    let _ ← next
  if ← atWord "class" then
    let node ← classExpression rules token.start decorations abstract
    close .exportDefaultDecl start [node]
  else if !decorations.kids.isEmpty then unexpected
  else
    match token.lexeme with
    | .word "function" false =>
      expectWord "function"
      let generator ← eat "*"
      let name ← partIf (← atIdentifier) binding
      let empty ← listOf []
      let function ← withReader plainScope
        (functionTail rules token.start empty false generator typed)
      let node ← close .functionExpr token.start [name, function]
      close .exportDefaultDecl start [node]
    | .word "async" false =>
      if second.lexeme == .word "function" false && !second.newline then
        let _ ← next
        let node ← functionExpression rules token.start true
        close .exportDefaultDecl start [node]
      else exported rules start
    | .word "interface" false =>
      if typed then
        let node ← interfaceDeclaration rules token.start
        close .exportDefaultDecl start [node]
      else exported rules start
    | _ => exported rules start
where
  exported (rules : Rules) (start : Place) : Reader Node := do
    let node ← rules.assignment
    semicolon
    close .exportDefaultExpr start [node]

def exportDeclared (start : Place) (decorations : Node) : Reader Node := do
  let token ← peek
  let inner ← do
    if decorations.kids.isEmpty then rules.statement else decorated rules token.start decorations
  match inner.kind with
  | .variableDecl _ | .functionDecl | .classDecl | .typeDeclaration _ =>
    close .exportDecl start [inner]
  | _ => throw (.unexpected token.start.offset)

def exportDeclaration (start : Place) (decorations : Node) : Reader Node := do
  expectWord "export"
  let typed ← typescript
  let second := (← peekSecond).lexeme
  match (← peek).lexeme with
  | .punct "\x7b" => exportNames rules start false
  | .punct "*" => exportAll rules start
  | .word "default" false => exportDefault rules start
  | .punct "=" =>
    if typed then
      let _ ← next
      let node ← rules.expression
      semicolon
      close .typeExport start [node]
    else unexpected
  | .word "as" false =>
    if typed && second == .word "namespace" false then
      let _ ← next
      let _ ← next
      let name ← binding
      semicolon
      close .typeExport start [name]
    else unexpected
  | .word "import" false =>
    if typed then
      let _ ← next
      let marked := (← atWord "type") && isWord (← peekSecond).lexeme
      if marked then
        let _ ← next
      let name ← typeName
      importAlias start name
    else unexpected
  | .word "type" false =>
    if typed && second == .punct "\x7b" then
      let _ ← next
      exportNames rules start true
    else if typed && second == .punct "*" then
      let _ ← next
      exportAll rules start
    else exportDeclared rules start decorations
  | _ => exportDeclared rules start decorations

def moduleItem : Reader Node := do
  let token ← peek
  let second := (← peekSecond).lexeme
  match token.lexeme with
  | .word "import" false =>
    if second == .punct "(" || second == .punct "." then rules.statement
    else importDeclaration rules token.start
  | .word "export" false => exportDeclaration rules token.start (← listOf [])
  | .punct "@" =>
    match ← lookAhead (do
      let _ ← decorators rules
      atWord "export") with
    | some true =>
      if ← typescript then
        let decorations ← decorators rules
        exportDeclaration rules token.start decorations
      else unexpected
    | _ => rules.statement
  | _ => rules.statement

def module : Reader Node := do
  let start ← offset
  let items ← many do
    if (← peek).lexeme == .stop then return none
    else return some (← rules.moduleItem)
  faultIf (← peek).faulty
  close .module start items

def rulesUpTo : Nat → Rules
  | 0 => Rules.none
  | n + 1 => {
      expression := fun scope state => expression (rulesUpTo n) scope state
      assignment := fun scope state => assignment (rulesUpTo n) scope state
      argument := fun scope state => spreadable (rulesUpTo n) scope state
      operand := fun scope state => operand (rulesUpTo n) scope state
      binary := fun level scope state => binary (rulesUpTo n) level scope state
      unary := fun scope state => unary (rulesUpTo n) scope state
      callee := fun scope state => callee (rulesUpTo n) scope state
      leftHand := fun scope state => leftHand (rulesUpTo n) scope state
      pattern := fun scope state => pattern (rulesUpTo n) scope state
      type := fun scope state => type (rulesUpTo n) scope state
      statement := fun scope state => statement (rulesUpTo n) scope state
      moduleItem := fun scope state => moduleItem (rulesUpTo n) scope state
      body := fun scope state => block (rulesUpTo n) scope state
      classMember := fun scope state => classMember (rulesUpTo n) scope state
      element := fun cursor scope state => element (rulesUpTo n) cursor scope state }

end Sveltify.Script.Grammar
