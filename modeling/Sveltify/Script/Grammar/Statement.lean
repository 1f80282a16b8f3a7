import Sveltify.Script.Grammar.Expression

/-! Statements and declarations. -/

namespace Sveltify.Script.Grammar

variable [Subject] (rules : Rules)

/-- One variable or pattern of a declaration with its value. Only a variable may lack one, and a
constant may not; the items of a `loop` are the value of what it declares. -/
def declarator (word : String) (loop : Bool) : Reader Node := do
  let start ← offset
  if word != "var" && (← atWord "let") then unexpected
  let target ← rules.pattern
  let named := target.ident?.isSome
  if (← typescript) && named && (← atPunct "!") then
    let _ ← next
  let type ← ascriptionIfAny rules
  let each := loop && ((← atWord "in") || (← atWord "of"))
  let value ← partIf (← eatIf (!each) "=") rules.assignment
  if value.isAbsent && !each && !(← read).ambient then
    if word == "const" && !loop then fault
    else if !named then unexpected
  close .declarator start [typed target type, value]

/-- The declarators of a declaration. A comma after the last one is a fault. Only in the `var` of a
loop is `in` no operator. -/
def declarators (word : String) (loop : Bool) : Reader (List Node) :=
  withReader (fun scope => { scope with noIn := scope.noIn && word == "var" }) do
  let found ← extend (fun (nodes, more) => do
    if !more then return none
    else if (← atPunct ";") || (← peek).lexeme == .stop then
      fault
      return some (nodes, false)
    else
      let node ← declarator rules word loop
      return some (node :: nodes, ← eat ",")) (([] : List Node), true)
  return found.1.reverse

def declarationEnd : Reader Unit := do
  if !(← atStatementEnd) then
    fault
    let _ ← attempt rules.expression
    let _ ← many do
      if ← atStatementEnd then return none
      else
        let _ ← next
        return some ()
  let _ ← eat ";"

def variableDeclaration (start : Place) (word : String) : Reader Node := do
  let _ ← next
  let nodes ← declarators rules word false
  declarationEnd rules
  close (.variableDecl word) start nodes

/-- A declaration of variables whose values are given back in the end, which only TypeScript has.
Each of them has a value. -/
def usingDeclaration (start : Place) : Reader Node := do
  expectWord "using"
  let nodes ← declarators rules "var" false
  faultIf (!(← typescript) ||
    nodes.any fun n => (n.kid 0).ident?.isNone || (n.kid 1).isAbsent)
  semicolon
  close .usingDecl start nodes

def startsUsing (token : Token) : Bool :=
  let second := Token.read token.stop
  token.lexeme == .word "using" false && isIdentifier second.lexeme && !second.newline

def block : Reader Node := do
  let start ← offset
  expect "\x7b"
  let nodes ← freely (untilClosed rules.statement)
  close .block start nodes

/-- The end of a statement that is an expression. An operator that goes on with an expression that
cannot is a fault. -/
def expressionEnd (start : Place) (node : Node) : Reader Node := do
  if !(← atStatementEnd) && isOperatorSign (← peek).lexeme then
    fault
    let whole ← binaryFrom rules 0 node
    close .expression start [whole]
  else
    semicolon
    close .expression start [node]

def isScoped : Node → Bool
  | .of .classDecl _ _ => true
  | .of .functionDecl _ [_, .of (.function async _) _ _] => !async
  | _ => false

def single : Reader Node := do
  let start ← offset
  let second := (← peekSecond).lexeme
  let declares := (← atWord "let") || startsUsing (← peek) ||
    ((← atWord "const") && second != .word "enum" false)
  if declares then expressionEnd rules start (← rules.expression)
  else
    let statement ← rules.statement
    faultIf (isScoped statement)
    return statement

def inParens : Reader Node := do
  expect "("
  let node ← freely rules.expression
  expect ")"
  return node

def loopBody : Reader Node :=
  withReader (fun scope => { scope with loop := true, breakable := true }) (single rules)

def ifStatement (start : Place) : Reader Node := do
  let _ ← next
  let test ← inParens rules
  let yes ← single rules
  let no ← partIf (← eatWord "else") (single rules)
  close .if start [test, yes, no]

def forEachTail (start : Place) (left : Node) : Reader Node := do
  let items ← atWord "of"
  let _ ← next
  let right ← freely (if items then rules.assignment else rules.expression)
  expect ")"
  let body ← loopBody rules
  close (if items then .forOf else .forIn) start [left, right, body]

def forTail (start : Place) (first : Node) : Reader Node := do
  expect ";"
  let test ← partIf (!(← atPunct ";")) (freely rules.expression)
  expect ";"
  let update ← partIf (!(← atPunct ")")) (freely rules.expression)
  expect ")"
  let body ← loopBody rules
  close .for start [first, test, update, body]

def variablesWord : Reader (Option String) := do
  let second := (← peekSecond).lexeme
  match (← peek).lexeme with
  | .word "var" false => return some "var"
  | .word "const" false =>
    return if second == .word "enum" false && (← typescript) then none else some "const"
  | .word "let" false =>
    let declares := isIdentifier second || second == .punct "[" || second == .punct "\x7b"
    return if declares then some "let" else none
  | _ => return none

def isTyped (declared : Node) : Bool :=
  (declared.kid 0).kids.getLast?.any fun type => !type.isAbsent

def atLoopWord : Reader Bool := do
  if ← atWord "of" then return true else atWord "in"

def usingHead? (start : Place) (head : Node) : Reader (Option Node) := do
  let words := match head with
    | .of (.ident "using") _ _ _ | .of .await _ [.of (.ident "using") _ _ _] => true
    | _ => false
  let second := (← peekSecond).lexeme
  let goesOver := second == .word "of" false || second == .word "in" false
  if (← typescript) && words && !(← atWord "of") && goesOver then
    let name ← binding
    let declared ← close .declarator name.span.start [name, ← absent]
    faultIf (← atWord "in")
    return some (← close .usingDecl start [declared])
  else return none

def forHead (awaits : Bool) : Reader Node := do
  let start ← offset
  match ← variablesWord with
  | some word =>
    let _ ← next
    let nodes ← declarators rules word true
    faultIf ((← atLoopWord) &&
      (nodes.length != 1 || nodes.any fun n => !(n.kid 1).isAbsent || isTyped n))
    close (.variableDecl word) start nodes
  | none =>
    if ← atPunct ";" then absent
    else
      let head ← rules.expression
      match ← usingHead? start head with
      | some node => return node
      | none =>
        if ← atLoopWord then
          let typed ← typescript
          demand (loopFit typed (← get).commas head)
          faultIf (typed && isStructure head && (← atWord "in"))
          match head with
          | .of (.ident "async") _ _ _ => faultIf ((← atWord "of") && !awaits)
          | _ => pure ()
        return head

def forStatement (start : Place) : Reader Node := do
  let _ ← next
  let awaits ← eatWord "await"
  expect "("
  let head ← withReader (fun scope => { scope with noIn := true }) (forHead rules awaits)
  if ← atLoopWord then
    if awaits && (← atWord "in") then unexpected
    else forEachTail rules start head
  else if awaits then unexpected
  else
    match head.kind with
    | .usingDecl => unexpected
    | _ => forTail rules start head

def caseBody : Reader Node := do
  let nodes ← many do
    if (← atWord "case") || (← atWord "default") || (← atPunct "\x7d") then return none
    else return some (← rules.statement)
  listOf nodes

def switchCase : Reader Node := do
  let start ← offset
  let test ← if ← eatWord "default" then absent else do
    expectWord "case"
    freely rules.expression
  expect ":"
  let body ← caseBody rules
  close .switchCase start [test, body]

def switchStatement (start : Place) : Reader Node := do
  let _ ← next
  let subject ← inParens rules
  expect "\x7b"
  let cases ← withReader (fun scope => { scope with breakable := true }) (many do
    if ← eat "\x7d" then return none
    else return some (← switchCase rules))
  if (cases.filter fun c => (c.kid 0).isAbsent).length > 1 then unexpected
  close .switch start [subject, ← listOf cases]

def catchClause : Reader Node := do
  let start ← offset
  expectWord "catch"
  let param ← do
    if ← eat "(" then
      let target ← rules.pattern
      let type ← ascriptionIfAny rules
      expect ")"
      pure (typed target type)
    else absent
  let body ← block rules
  close .catchClause start [param, body]

def tryStatement (start : Place) : Reader Node := do
  let _ ← next
  let body ← block rules
  let handler ← partIf (← atWord "catch") (catchClause rules)
  let finalizer ← partIf (← eatWord "finally") (block rules)
  faultIf (handler.isAbsent && finalizer.isAbsent)
  close .try start [body, handler, finalizer]

def strayHandler (start : Place) : Reader Node := do
  fault
  if ← atWord "catch" then
    let _ ← orNothing (fun _ => true) (catchClause rules)
  if ← eatWord "finally" then
    let _ ← orNothing (fun _ => true) (block rules)
  close .expression start [← absent]

def jump (start : Place) (leaves : Bool) : Reader Node := do
  let scope ← read
  let _ ← next
  let label ← do
    if (← atNewline) || !(← atIdentifier) then absent else reference
  semicolon
  faultIf !(label.ident?.all scope.labels.contains)
  faultIf !(if leaves then scope.breakable else scope.loop)
  close (if leaves then .break else .continue) start [label]

def returnStatement (start : Place) : Reader Node := do
  let _ ← next
  faultIf !(← read).function
  let value ← partIf (!(← atStatementEnd)) rules.expression
  semicolon
  close .return start [value]

def throwStatement (start : Place) : Reader Node := do
  let _ ← next
  if ← atNewline then unexpected
  else
    let value ← rules.expression
    semicolon
    close .throw start [value]

/-- A statement that is an expression, or that a label stands before: a variable with a colon after
it. No statement around it has the same label. -/
def expressionStatement (start : Place) : Reader Node := do
  let node ← rules.expression
  match node with
  | .of (.ident name) _ _ _ =>
    if ← eat ":" then
      faultIf ((← read).labels.contains name)
      let body ← withReader
        (fun scope => { scope with labels := name :: scope.labels, breakable := true })
        (single rules)
      close .labeled start [node, body]
    else expressionEnd rules start node
  | _ => expressionEnd rules start node

def functionDeclaration (start : Place) (async : Bool) : Reader Node := do
  expectWord "function"
  let generator ← eat "*"
  let name ← binding
  let decorations ← listOf []
  let function ← withReader plainScope
    (functionTail rules start decorations async generator (← typescript))
  close .functionDecl start [name, function]

def classDeclaration (start : Place) (decorations : Node) (abstract : Bool) :
    Reader Node := do
  expectWord "class"
  if ← atWord "let" then unexpected
  let name ← binding
  checkTypeName name
  let body ← classTail rules start decorations abstract
  close .classDecl start [name, body]

def interfaceDeclaration (start : Place) : Reader Node := do
  expectWord "interface"
  let name ← typeName
  checkTypeName name
  let generics ← typeParameters rules { variance := true, constant := false }
  let parents ← if ← eatWord "extends" then heritage rules else pure []
  let body ← typeMembers rules
  close (.typeDeclaration .interface) start ([name, generics] ++ parents ++ [body])

def aliasDeclaration (start : Place) : Reader Node := do
  expectWord "type"
  let name ← typeName
  let generics ← typeParameters rules { variance := true, constant := false }
  expect "="
  let type ← rules.type
  semicolon
  close (.typeDeclaration .alias) start [name, generics, type]

def enumKey : Reader Node := do
  match (← peek).lexeme with
  | .string _ => stringLiteral
  | .number _ _ =>
    fault
    propertyKey rules
  | .punct "[" =>
    let key ← propertyKey rules
    faultIf !(key.kids.all fun inner => match inner with
      | .of (.string _) _ _ | .of (.template [_]) _ _ => true
      | _ => false)
    return key
  | _ => typeName

def enumMember : Reader Node := do
  let start ← offset
  let key ← enumKey rules
  let value ← partIf (← eat "=") rules.assignment
  close .type start [key, value]

def enumDeclaration (start : Place) : Reader Node := do
  let _ ← eatWord "const"
  expectWord "enum"
  let name ← typeName
  expect "\x7b"
  let members ← commaList "\x7d" (enumMember rules)
  close (.typeDeclaration .enum) start (name :: members)

def namespaceBody : Reader (List Node) := do
  expect "\x7b"
  many do
    if ← eat "\x7d" then return none
    else return some (← rules.moduleItem)

def namespaceDeclaration (start : Place) : Reader Node := do
  match (← peek).lexeme with
  | .string _ =>
    let name ← stringLiteral
    let items ← if ← atPunct "\x7b" then namespaceBody rules else do
      semicolon
      pure []
    close (.typeDeclaration .namespace) start (name :: items)
  | _ =>
    let name ← typeName
    let _ ← many do
      if ← eat "." then return some (← typeName)
      else return none
    let items ← namespaceBody rules
    close (.typeDeclaration .namespace) start (name :: items)

def globalDeclaration (start : Place) : Reader Node := do
  let _ ← next
  close (.typeDeclaration .namespace) start (← namespaceBody rules)

def abstractClass (start : Place) (decorations : Node) : Reader Node := do
  let _ ← next
  classDeclaration rules start decorations true

def ambientDeclaration (start : Place) (decorations : Node) : Reader Node := do
  let inner ← withReader (fun scope => { scope with ambient := true }) do
    let own ← offset
    match (← peek).lexeme with
    | .word "class" false => classDeclaration rules own decorations false
    | .word "abstract" false => abstractClass rules own decorations
    | .word "interface" false => interfaceDeclaration rules own
    | .word "type" false => aliasDeclaration rules own
    | .word "namespace" false | .word "module" false =>
      let _ ← next
      namespaceDeclaration rules own
    | .word "global" false => globalDeclaration rules own
    | _ => rules.statement
  return .of inner.kind ⟨start, inner.span.stop⟩ inner.kids inner.isNamed_kind

def ambientWords : List String := [
  "const", "let", "var", "function", "class", "interface", "type", "enum", "namespace", "module",
  "global", "abstract"]

def typeDeclaration (decorations : Node) : Reader (Option Node) := do
  let start ← offset
  let second ← peekSecond
  let named := isIdentifier second.lexeme
  let sameLine := !second.newline
  if !(← typescript) then return none
  else
    match (← peek).lexeme with
    | .word "interface" false =>
      if named && sameLine then return some (← interfaceDeclaration rules start) else return none
    | .word "type" false =>
      if named && sameLine then return some (← aliasDeclaration rules start) else return none
    | .word "enum" false =>
      if isWord second.lexeme && sameLine then return some (← enumDeclaration rules start)
      else return none
    | .word "const" false =>
      if second.lexeme == .word "enum" false then return some (← enumDeclaration rules start)
      else return none
    | .word "namespace" false =>
      if named then
        let _ ← next
        return some (← namespaceDeclaration rules start)
      else return none
    | .word "module" false =>
      let quoted := match second.lexeme with
        | .string _ => true
        | _ => false
      if sameLine && (named || quoted) then
        let _ ← next
        return some (← namespaceDeclaration rules start)
      else return none
    | .word "global" false =>
      if second.lexeme == .punct "\x7b" then return some (← globalDeclaration rules start)
      else return none
    | .word "abstract" false =>
      if second.lexeme == .word "class" false && sameLine then
        return some (← abstractClass rules start decorations)
      else return none
    | .word "declare" false =>
      let declares := match second.lexeme with
        | .word name _ => sameLine && ambientWords.contains name
        | _ => false
      if declares then
        let _ ← next
        return some (← ambientDeclaration rules start decorations)
      else return none
    | _ => return none

def wordStatement (start : Place) (name : String) : Reader Node := do
  let second ← peekSecond
  match name with
  | "if" => ifStatement rules start
  | "for" => forStatement rules start
  | "while" =>
    let _ ← next
    let test ← inParens rules
    let body ← loopBody rules
    close .while start [test, body]
  | "do" =>
    let _ ← next
    let body ← loopBody rules
    expectWord "while"
    let test ← inParens rules
    let _ ← eat ";"
    close .doWhile start [test, body]
  | "switch" => switchStatement rules start
  | "try" => tryStatement rules start
  | "break" => jump start true
  | "continue" => jump start false
  | "return" => returnStatement rules start
  | "throw" => throwStatement rules start
  | "debugger" =>
    let _ ← next
    semicolon
    close .debugger start []
  | "with" =>
    let _ ← next
    fault
    let subject ← inParens rules
    let body ← single rules
    close .with start [subject, body]
  | "catch" | "finally" => strayHandler rules start
  | "function" => functionDeclaration rules start false
  | "class" =>
    let decorations ← listOf []
    classDeclaration rules start decorations false
  | "import" =>
    if second.lexeme == .punct "(" || second.lexeme == .punct "." then
      expressionStatement rules start
    else unexpected
  | "async" =>
    if second.lexeme == .word "function" false && !second.newline then
      let _ ← next
      functionDeclaration rules start true
    else expressionStatement rules start
  | _ => expressionStatement rules start

def usingStatement? : Reader (Option Node) := do
  let token ← peek
  let second ← peekSecond
  let scope ← read
  if startsUsing token then return some (← usingDeclaration rules token.start)
  else if token.lexeme == .word "await" false && startsUsing second && !second.newline &&
      (scope.async || !scope.function) then
    let _ ← next
    return some (← usingDeclaration rules token.start)
  else return none

/-- A statement after decorators, which only a class keeps. They belong to the range of a class and
of an expression. -/
def decorated (start : Place) (decorations : Node) : Reader Node := do
  if ← atWord "class" then classDeclaration rules start decorations false
  else
    match ← typeDeclaration rules decorations with
    | some node => return node
    | none =>
      let inner ← rules.statement
      match inner.kind with
      | .expression | .empty =>
        return .of inner.kind ⟨start, inner.span.stop⟩ inner.kids inner.isNamed_kind
      | _ => return inner

def statement : Reader Node := do
  let token ← peek
  let start := token.start
  match ← variablesWord with
  | some word => variableDeclaration rules start word
  | none =>
    match ← usingStatement? rules with
    | some node => return node
    | none =>
      match ← typeDeclaration rules (← listOf []) with
      | some node => return node
      | none =>
        match token.lexeme with
        | .punct "\x7b" => block rules
        | .punct ";" =>
          let _ ← next
          close .empty start []
        | .punct "@" =>
          let decorations ← decorators rules
          if decorations.kids.isEmpty then unexpected else decorated rules start decorations
        | .word name false => wordStatement rules start name
        | _ => expressionStatement rules start

end Sveltify.Script.Grammar
