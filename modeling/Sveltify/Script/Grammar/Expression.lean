import Sveltify.Script.Grammar.Arrow
import Sveltify.Script.Grammar.Element

/-! Expressions. -/

namespace Sveltify.Script.Grammar

variable [Subject] (rules : Rules)

def isChain : Node → Bool
  | .of .chain _ _ => true
  | .of .nonNull _ [inner] => isChain inner
  | _ => false

def regexLiteral : Reader Node := do
  let token ← peek
  let (r, stop) := (token.start.advance 1).scan Literal.RegexScan.step {}
  if r.part == .flags then
    faultIf !r.hasKnownFlags
    resume stop
    close (.regex (String.ofList r.pattern.reverse) (String.ofList r.flags.reverse)) token.start []
  else unexpected

def functionExpression (start : Place) (async : Bool) : Reader Node := do
  expectWord "function"
  let generator ← eat "*"
  let name ← partIf (← atIdentifier) binding
  let decorations ← listOf []
  let function ← withReader plainScope
    (functionTail rules start decorations async generator false)
  close .functionExpr start [name, function]

def primary : Reader Node := do
  let token ← peek
  let start := token.start
  match token.lexeme with
  | .string _ => stringLiteral
  | .number mantissa exponent =>
    let _ ← next
    close (.number mantissa exponent) start []
  | .bigint =>
    let _ ← next
    close .bigint start []
  | .privateWord _ => privateName
  | .punct "(" => parenthesized rules start none false
  | .punct "[" => arrayLiteral rules
  | .punct "\x7b" => objectLiteral rules
  | .punct "`" => freely (template rules.expression false)
  | .punct "/" | .punct "/=" => regexLiteral
  | .punct "@" =>
    let decorations ← decorators rules
    classExpression rules start decorations false
  | .word "this" false =>
    let _ ← next
    close .this start []
  | .word "null" false =>
    let _ ← next
    close .null start []
  | .word "true" false =>
    let _ ← next
    close (.bool true) start []
  | .word "false" false =>
    let _ ← next
    close (.bool false) start []
  | .word "function" false => functionExpression rules start false
  | .word "class" false =>
    let decorations ← listOf []
    classExpression rules start decorations false
  | .word "async" false =>
    let second ← peekSecond
    if second.lexeme == .word "function" false && !second.newline then
      let _ ← next
      functionExpression rules start true
    else reference
  | _ => reference

def memberName : Reader Node := do
  match (← peek).lexeme with
  | .privateWord _ => privateName
  | _ => propertyWord

def memberOf (base property : Node) (asked : Bool) : Reader Node := do
  let start := base.span.start
  match base.kind with
  | .super => close .superMember start [base, property]
  | _ =>
    let member ← close .member start [base, property]
    if asked || isChain base then close .chain start [member] else return member

def callOf (base args typeArgs : Node) (asked : Bool) : Reader Node := do
  let start := base.span.start
  if asked || isChain base then
    let call ← close .chainCall start [base, args, typeArgs]
    close .chain start [call]
  else close .call start [base, args, typeArgs]

def computedName : Reader Node := do
  let start ← offset
  expect "["
  let inner ← freely rules.expression
  expect "]"
  close .computed start [inner]

def memberStep (base : Node) : Reader (Option Node) := do
  if ← eat "." then
    let name ← memberName
    return some (← memberOf base name false)
  else if ← atPunct "[" then
    let name ← computedName rules
    return some (← memberOf base name false)
  else if ← atPunct "`" then
    faultIf (isChain base)
    let text ← freely (template rules.expression true)
    return some (← close .taggedTemplate base.span.start [base, ← absent, text])
  else if (← typescript) && (← atPunct "!") && !(← atNewline) then
    let _ ← next
    return some (← close .nonNull base.span.start [base])
  else return none

def endsInstantiation : Reader Bool := do
  let token ← peek
  match token.lexeme with
  | .punct text =>
    return !(["(", "[", "\x7b", "`", "+", "-", "!", "~", "++", "--", "/", "<"].contains text) ||
      (text == "\x7b")
  | .word _ _ => return token.newline || (← atWord "as") || (← atWord "implements")
  | .stop => return true
  | _ => return token.newline

def genericStep (base : Node) (calls : Bool) : Reader (Option Node) :=
  attempt do
    let args ← typeArguments rules
    if calls && (← atPunct "(") then
      let values ← arguments rules
      callOf base values args false
    else if ← atPunct "`" then
      let text ← freely (template rules.expression true)
      close .taggedTemplate base.span.start [base, args, text]
    else if ← endsInstantiation then close .instantiation base.span.start [base, args]
    else unexpected

def chainLink (base : Node) : Reader Node := do
  if ← atPunct "[" then
    let name ← computedName rules
    memberOf base name true
  else if ← atPunct "(" then
    let values ← arguments rules
    callOf base values (← absent) true
  else if (← typescript) && (← atPunct "<") then
    let args ← typeArguments rules
    let values ← arguments rules
    callOf base values args true
  else
    let name ← memberName
    memberOf base name true

def leftHandStep (base : Node) : Reader (Option Node) := do
  match ← memberStep rules base with
  | some node => return some node
  | none =>
    if ← atPunct "(" then
      let values ← arguments rules
      return some (← callOf base values (← absent) false)
    else if ← eat "?." then return some (← chainLink rules base)
    else if (← typescript) && (← atPunct "<") then genericStep rules base true
    else return none

/-- `import` where an expression starts. It is called, perhaps with the phase that is asked for, if
`calls` holds. -/
def importExpression (calls : Bool) : Reader Node := do
  let start ← offset
  expectWord "import"
  let dotted ← eat "."
  if dotted && (← atWord "meta") then
    let _ ← next
    close .metaProperty start []
  else
    let phased := (← atWord "source") || (← atWord "defer")
    if dotted && phased then
      let _ ← next
    if calls && dotted == phased && (← atPunct "(") then close .importWord start []
    else unexpected

def newExpression : Reader Node := do
  let start ← offset
  expectWord "new"
  if ← eat "." then
    expectWord "target"
    faultIf !(← read).target
    close .metaProperty start []
  else
    let callee ← rules.callee
    if ← atPunct "?." then unexpected
    let typeArgs ← do
      if (← typescript) && (← atPunct "<") then
        match ← attempt (typeArguments rules) with
        | some args => pure args
        | none => absent
      else absent
    let args ← partIf (← atPunct "(") (arguments rules)
    close .new start [callee, args, typeArgs]

def superBase : Reader Node := do
  let start ← offset
  expectWord "super"
  let direct := (← read).method
  if ← atPunct "(" then
    faultIf !direct
    close .super start []
  else if direct && ((← atPunct ".") || (← atPunct "[")) then close .super start []
  else unexpected

def leftHandBase (calls : Bool) : Reader Node := do
  match (← peek).lexeme with
  | .word "new" false => newExpression rules
  | .word "import" false => importExpression calls
  | .word "super" false => superBase
  | _ => primary rules

def callee : Reader Node := do
  extend (memberStep rules) (← leftHandBase rules false)

def leftHand : Reader Node := do
  extend (leftHandStep rules) (← leftHandBase rules true)

def postfixFrom (operand : Node) : Reader Node := do
  let token ← peek
  match token.lexeme with
  | .punct "++" | .punct "--" =>
    if token.newline then return operand
    else
      demand (simpleFit (← typescript) false operand)
      let _ ← next
      let operator := if token.lexeme == .punct "++" then "++" else "--"
      close (.update operator false) operand.span.start [operand]
  | _ => return operand

/-- Marks an operand of `delete` that is a variable or, in TypeScript, that is no member. -/
def checkDeleted (operand : Node) : Reader Unit := do
  let isMember := match operand.unparen with
    | .of .member _ _ => true
    | .of .chain _ [.of .member _ _] => true
    | _ => false
  faultIf (operand.ident?.isSome || ((← typescript) && !isMember))

def unaryOf (operator : String) : Reader Node := do
  let start ← offset
  let _ ← next
  let operand ← orNothing (fun _ => true) rules.unary
  if operator == "delete" then checkDeleted operand
  close (.unary operator) start [operand]

def awaitExpression : Reader Node := do
  let scope ← read
  let token ← next
  let ends := (← atStatementEnd) || (← atPunct ")") || (← atPunct "]") || (← atPunct ",")
  if !scope.async && ends then
    fault
    return .of (.ident "await") token.span []
  else
    faultIf (scope.parameters || (scope.function && !scope.async))
    let operand ← rules.unary
    close .await token.start [operand]

def typeAssertion : Reader Node := do
  let start ← offset
  expect "<"
  if (← atWord "const") && (← peekSecond).lexeme == .punct ">" then
    let _ ← next
    expectChar '>'
    let operand ← rules.unary
    close .constCast start [operand]
  else
    let type ← freely rules.type
    expectChar '>'
    let operand ← rules.unary
    close .cast start [operand, type]

def unary : Reader Node := do
  let token ← peek
  match token.lexeme with
  | .punct "+" => unaryOf rules "+"
  | .punct "-" => unaryOf rules "-"
  | .punct "!" => unaryOf rules "!"
  | .punct "~" => unaryOf rules "~"
  | .word "delete" false => unaryOf rules "delete"
  | .word "typeof" false => unaryOf rules "typeof"
  | .word "void" false => unaryOf rules "void"
  | .word "await" false => awaitExpression rules
  | .punct "++" | .punct "--" =>
    let _ ← next
    let operand ← rules.unary
    demand (simpleFit (← typescript) false operand)
    close (.update (if token.lexeme == .punct "++" then "++" else "--") true) token.start [operand]
  | .punct "<" =>
    let dialect := (← read).dialect
    if dialect.jsx then
      let (node, stop) ← rules.element token.start
      resume stop
      return node
    else if dialect.typescript then typeAssertion rules
    else unexpected
  | _ => postfixFrom (← leftHand rules)

def precedence (operator : String) : Option Nat :=
  match operator with
  | "??" | "||" => some 1
  | "&&" => some 2
  | "|" => some 3
  | "^" => some 4
  | "&" => some 5
  | "==" | "!=" | "===" | "!==" => some 6
  | "<" | ">" | "<=" | ">=" | "instanceof" | "in" => some 7
  | "<<" | ">>" | ">>>" => some 8
  | "+" | "-" => some 9
  | "*" | "/" | "%" => some 10
  | "**" => some 11
  | _ => none

def binaryOperator : Reader (Option String) := do
  let scope ← read
  match (← peek).lexeme with
  | .punct text => return some text
  | .word "instanceof" false => return some "instanceof"
  | .word "in" false => return if scope.noIn then none else some "in"
  | _ => return none

def operator? (node : Node) : Option String :=
  match node.kind with
  | .binary operator => some operator
  | _ => none

/-- Operands that have to stand in parentheses: those of `??` that are joined by another operator of
logic, and the first of such an operator that is joined by `??`. -/
def mixesLogic (operator : String) (left right : Node) : Bool :=
  let isLogic := fun (name : String) => name == "||" || name == "&&"
  if operator == "??" then (operator? left).any isLogic || (operator? right).any isLogic
  else isLogic operator && operator? left == some "??"

def castStep (left : Node) : Reader (Option Node) := do
  if ← eatWord "as" then
    if ← eatWord "const" then return some (← close .constCast left.span.start [left])
    else
      let type ← rules.type
      return some (← close .cast left.span.start [left, type])
  else if ← eatWord "satisfies" then
    let type ← rules.type
    return some (← close .cast left.span.start [left, type])
  else return none

def binaryStep (level : Nat) (left : Node) : Reader (Option Node) := do
  let cast ← do
    if (← typescript) && !(← atNewline) && level ≤ 7 then castStep rules left else pure none
  match cast with
  | some node => return some node
  | none =>
    let operator := (← binaryOperator).getD ""
    match precedence operator with
    | none => return none
    | some strength =>
      if strength < level then return none
      else
        let negated := match left.kind with
          | .unary _ | .await => true
          | _ => false
        if operator == "**" && negated then unexpected
        else
          let _ ← next
          let right ← rules.binary (if operator == "**" then strength else strength + 1)
          faultIf (mixesLogic operator left right)
          return some (← close (.binary operator) left.span.start [left, right])

def binaryFrom (level : Nat) (left : Node) : Reader Node :=
  extend (binaryStep rules level) left

def isOperatorSign : Lexeme → Bool
  | .punct text => (precedence text).isSome
  | _ => false

def isBinaryOperator (noIn : Bool) : Lexeme → Bool
  | .word "in" false => !noIn
  | .word "instanceof" false => true
  | other => isOperatorSign other

def binary (level : Nat) : Reader Node := do
  let resumes := isBinaryOperator (← read).noIn
  let first ← if level == 0 then orNothing resumes rules.unary else rules.unary
  binaryFrom rules level first

def isBlockArrow : Node → Bool
  | .of (.arrow _) _ (_ :: .of .block _ _ :: _) => true
  | _ => false

/-- What starts with an opening parenthesis, with what follows it. Nothing follows an arrow
function, and an operator after the statements of one is a fault. -/
def operandFrom (opened : Reader Node) : Reader Node := do
  let head ← orNothing (isBinaryOperator (← read).noIn) do
    let node ← opened
    if isArrow node then return node else postfixFrom (← extend (leftHandStep rules) node)
  if isArrow head then
    if isBlockArrow head && isOperatorSign (← peek).lexeme then
      fault
      binaryFrom rules 0 head
    else return head
  else binaryFrom rules 0 head

def asyncOperand : Reader Node := do
  let start ← offset
  let second ← peekSecond
  if second.newline then rules.binary 0
  else
    match second.lexeme with
    | .punct "(" =>
      operandFrom rules do
        let name ← reference
        parenthesized rules start (some name) true
    | .punct "<" =>
      let head ← attempt do
        if !(← typescript) then unexpected
        let _ ← next
        genericHead rules
      match head with
      | some (generics, params, answer) => arrowTail rules start true params generics answer
      | none => rules.binary 0
    | .word _ _ =>
      if (Token.read second.stop).lexeme == .punct "=>" && isIdentifier second.lexeme then
        let _ ← next
        bareArrow rules start true
      else rules.binary 0
    | _ => rules.binary 0

def operand : Reader Node := do
  let token ← peek
  let second ← peekSecond
  if token.lexeme == .punct "(" then
    operandFrom rules (parenthesized rules token.start none true)
  else if isIdentifier token.lexeme && second.lexeme == .punct "=>" && !second.newline then
    bareArrow rules token.start false
  else if token.lexeme == .word "async" false then asyncOperand rules
  else rules.binary 0

def startsExpression : Lexeme → Bool
  | .punct text =>
    ["(", "[", "\x7b", "`", "+", "-", "!", "~", "++", "--", "/", "/=", "<", "@"].contains text
  | .word name escaped =>
    escaped || !reservedWords.contains name ||
      ["class", "delete", "false", "function", "import", "new", "null", "super", "this", "true",
        "typeof", "void"].contains name
  | .string _ | .number _ _ | .bigint | .privateWord _ => true
  | .stop | .invalid => false

def yieldExpression : Reader Node := do
  let start ← offset
  expectWord "yield"
  let token ← peek
  if (← read).parameters then unexpected
  else if (← atStatementEnd) || !(token.lexeme == .punct "*" || startsExpression token.lexeme) then
    close .yield start [← absent]
  else
    let _ ← eat "*"
    let operand ← rules.assignment
    close .yield start [operand]

def atGenericArrow : Reader Bool := do
  return (← typescript) && (← atPunct "<") && isWord (← peekSecond).lexeme

def assignment : Reader Node := do
  let generic ← if ← atGenericArrow then attempt (genericArrow rules) else pure none
  match generic with
  | some node => return node
  | none =>
    if (← read).generator && (← atWord "yield") then yieldExpression rules
    else
      let left ← operand rules
      if isArrow left then return left
      else
        let test ← conditionalFrom rules left
        match test.kind with
        | .conditional => return test
        | _ => assignmentFrom rules test

def expression : Reader Node := do
  let first ← rules.assignment
  let others ← many do
    if ← eat "," then return some (← rules.assignment)
    else return none
  if others.isEmpty then return first
  else close .sequence first.span.start (first :: others)

end Sveltify.Script.Grammar
