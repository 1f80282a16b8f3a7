import Sveltify.Script.Grammar.Template

/-! Types. A type is kept as the names and expressions that occur in it. -/

namespace Sveltify.Script.Grammar

variable [Subject] (rules : Rules)

def builtInTypes : List String := [
  "any", "unknown", "number", "object", "boolean", "bigint", "string", "symbol", "never",
  "undefined", "intrinsic"]

def takenTypeNames : List String := [
  "any", "unknown", "number", "object", "boolean", "bigint", "string", "symbol", "never", "null",
  "void", "intrinsic"]

def checkTypeName (name : Node) : Reader Unit := do
  faultIf ((← typescript) && name.ident?.any takenTypeNames.contains)

def freely {α : Type} (reader : Reader α) : Reader α :=
  withReader
    (fun scope => { scope with noConditional := false, noIn := false, colonAhead := false }) reader

def angleList (item : Reader Node) : Reader (List Node) :=
  many do
    if ← eatChar '>' then return none
    else
      let node ← item
      if ← startsWith '>' then return some node
      else
        expect ","
        return some node

def typeArguments : Reader Node := do
  let start ← offset
  expectChar '<'
  let args ← freely (angleList rules.type)
  close .type start args

structure ParameterWords where
  variance : Bool := false
  constant : Bool := true

def followsModifier (token : Token) : Bool :=
  !token.newline &&
    match token.lexeme with
    | .word _ _ | .privateWord _ | .string _ | .number _ _ | .bigint => true
    | .punct text => ["[", "\x7b", "*", "..."].contains text
    | _ => false

def modifierOf (names : List String) : Reader (Option String) := do
  match (← peek).lexeme with
  | .word name false =>
    if (← typescript) && names.contains name && followsModifier (← peekSecond) then
      let _ ← next
      return some name
    else return none
  | _ => return none

/-- Takes the words before a type parameter. One that may not stand there is a fault, and so is one
that stands there twice. -/
def parameterWords (words : ParameterWords) : Reader Unit := do
  let found ← many (modifierOf ["public", "private", "protected", "readonly", "abstract", "const",
    "override", "in", "out"])
  let allowed := found.all fun name =>
    (words.constant && name == "const") || (words.variance && (name == "in" || name == "out"))
  let ordered := ["in", "out"].all fun name => found.count name ≤ 1
  let reversed := (found.dropWhile (· != "out")).contains "in"
  faultIf (!allowed || !ordered || reversed)

def typeName : Reader Node := do
  return (← anyWord).ident

def typeParameter (words : ParameterWords) : Reader Node := do
  let start ← offset
  parameterWords words
  let name ← typeName
  let bound ← partIf (← eatWord "extends") rules.type
  let default ← partIf (← eat "=") rules.type
  close .type start [name, bound, default]

def typeParameters (words : ParameterWords) : Reader Node := do
  if (← typescript) && (← atPunct "<") then
    let start ← offset
    expect "<"
    let params ← freely (angleList (typeParameter rules words))
    close .type start params
  else absent

def ascription : Reader Node := do
  let start ← offset
  expect ":"
  let type ← freely rules.type
  close .type start [type]

def ascriptionIfAny : Reader Node := do
  partIf ((← typescript) && (← atPunct ":")) (ascription rules)

def answerType : Reader Node := do
  let start ← offset
  let second ← peekSecond
  let asserts := (← atWord "asserts") && isWord second.lexeme && !second.newline
  if asserts then
    let _ ← next
  let following ← peekSecond
  let states :=
    (← atIdentifier) && following.lexeme == .word "is" false && !following.newline
  if asserts || states then
    let subject ← if ← atWord "this" then propertyWord else typeName
    let type ← partIf (← eatWord "is") rules.type
    close .type start [subject, type]
  else rules.type

def answerAscription : Reader Node := do
  let start ← offset
  expect ":"
  let type ← freely (answerType rules)
  close .type start [type]

def answerAscriptionIfAny : Reader Node := do
  partIf ((← typescript) && (← atPunct ":")) (answerAscription rules)

/-- A pattern with the type that is said of it. The type belongs to the range of an array or an
object, and not to that of a variable. -/
def typed (target type : Node) : Node :=
  if type.isAbsent then target
  else
    match target with
    | .of (.ident name) span _ named => .of (.ident name) span [type] named
    | .of kind span parts named =>
      .of kind ⟨span.start, type.span.stop⟩ (parts.dropLast ++ [type]) named
    | _ => target

def signatureParameter : Reader Node := do
  let start ← offset
  let rest ← eat "..."
  let target ← rules.pattern
  let optional ← eat "?"
  faultIf (rest && optional)
  let type ← ascriptionIfAny rules
  if rest then
    faultIf (← atPunct ",")
    close .rest start [typed target type]
  else return typed target type

def signatureParameters : Reader Node := do
  expect "("
  listOf (← freely (commaList ")" (signatureParameter rules)))

def functionType : Reader Node := do
  let start ← offset
  let generics ← typeParameters rules {}
  let parameters ← signatureParameters rules
  expect "=>"
  let answer ← answerType rules
  close .type start [generics, parameters, answer]

def followsParameter (lexeme : Lexeme) : Bool :=
  [.punct ":", .punct ",", .punct "?", .punct "="].contains lexeme

def atFunctionType : Reader Bool := do
  let found ← lookAhead do
    expect "("
    if (← atPunct ")") || (← atPunct "...") then return true
    else
      if ← atAnyWord then
        let _ ← next
      else
        let _ ← rules.pattern
      if followsParameter (← peek).lexeme then return true
      else if ← eat ")" then atPunct "=>"
      else return false
  return found.getD false

def entityName : Reader Node := do
  let start ← offset
  let head ← if ← atWord "this" then propertyWord else
    if (← atIdentifier) || (← atWord "break") then typeName else unexpected
  let _ ← many do
    if ← eat "." then return some (← propertyWord)
    else return none
  close .type start [head]

def typeArgumentsIfAny : Reader Node := do
  partIf (!(← atNewline) && (← startsWith '<')) (typeArguments rules)

def namedType : Reader Node := do
  let start ← offset
  let second ← peekSecond
  match (← peek).lexeme with
  | .word name false =>
    if builtInTypes.contains name && second.lexeme != .punct "." then
      let _ ← next
      close .type start []
    else
      let name ← entityName
      let args ← typeArgumentsIfAny rules
      close .type start [name, args]
  | _ =>
    let name ← entityName
    let args ← typeArgumentsIfAny rules
    close .type start [name, args]

def typeMemberKey : Reader Node := do
  let token ← peek
  match token.lexeme with
  | .word _ _ => return (← anyWord).ident
  | .string _ => stringLiteral
  | .number m e =>
    let _ ← next
    return .of (.number m e) token.span []
  | .privateWord _ =>
    fault
    privateName
  | .punct "[" =>
    let _ ← next
    let key ← rules.assignment
    expect "]"
    return key
  | _ => unexpected

def signature : Reader (List Node) := do
  let generics ← typeParameters rules {}
  let parameters ← signatureParameters rules
  let answer ← answerAscriptionIfAny rules
  return [generics, parameters, answer]

def atIndexSignature : Reader Bool := do
  if (← typescript) && (← atPunct "[") then
    let found ← lookAhead do
      expect "["
      if ← atIdentifier then
        let _ ← next
        atPunct ":"
      else return false
    return found.getD false
  else return false

def indexSignature : Reader (List Node) := do
  expect "["
  let name ← typeName
  let key ← ascription rules
  expect "]"
  let value ← ascriptionIfAny rules
  return [name, key, value]

def typeMemberEnd : Reader Unit := do
  if ← eat "," then return () else semicolon

def typeAccessor : Reader (List Node) := do
  let getter ← eatWord "get"
  if !getter then expectWord "set"
  let key ← typeMemberKey rules
  let parameters ← signatureParameters rules
  if parameters.kids.isEmpty != getter then unexpected
  let answer ← partIf getter (ascriptionIfAny rules)
  typeMemberEnd
  return [key, parameters, answer]

def typeProperty (readonly : Bool) : Reader (List Node) := do
  let key ← typeMemberKey rules
  let _ ← eat "?"
  if (← atPunct "(") || (← atPunct "<") then
    if readonly then unexpected
    let parts ← signature rules
    typeMemberEnd
    return key :: parts
  else
    let type ← ascriptionIfAny rules
    typeMemberEnd
    return [key, type]

def typeMember : Reader Node := do
  let start ← offset
  let second := (← peekSecond).lexeme
  let constructs := (← atWord "new") && (second == .punct "(" || second == .punct "<")
  let parts ← do
    if constructs || (← atPunct "(") || (← atPunct "<") then
      let _ ← eatWord "new"
      let parts ← signature rules
      typeMemberEnd
      pure parts
    else
      let readonly ← modifierOf ["readonly"]
      if ← atIndexSignature then
        let parts ← indexSignature rules
        typeMemberEnd
        pure parts
      else
        let accessor ← do
          if readonly.isNone && ((← atWord "get") || (← atWord "set")) then
            attempt (typeAccessor rules)
          else pure none
        match accessor with
        | some parts => pure parts
        | none => typeProperty rules readonly.isSome
  close .type start parts

def typeMembers : Reader Node := do
  let start ← offset
  expect "\x7b"
  let members ← freely (many do
    if ← eat "\x7d" then return none
    else return some (← typeMember rules))
  close .type start members

def eatSign : Reader Bool := do
  if ← eat "+" then return true else eat "-"

def atMappedType : Reader Bool := do
  let found ← lookAhead do
    expect "\x7b"
    if ← eatSign then atWord "readonly"
    else
      let _ ← eatWord "readonly"
      expect "["
      if ← atIdentifier then
        let _ ← next
        atWord "in"
      else return false
  return found.getD false

def mappedType : Reader Node := do
  let start ← offset
  expect "\x7b"
  let sign ← eatSign
  if sign then expectWord "readonly"
  else
    let _ ← eatWord "readonly"
  expect "["
  let name ← typeName
  expectWord "in"
  let keys ← freely rules.type
  let renamed ← partIf (← eatWord "as") (freely rules.type)
  expect "]"
  let optional ← eatSign
  if optional then expect "?"
  else
    let _ ← eat "?"
  let value ← ascriptionIfAny rules
  semicolon
  expect "\x7d"
  close .type start [name, keys, renamed, value]

inductive TupleRole where
  | required
  | optional
  | rest
deriving DecidableEq

def tupleElement : Reader (TupleRole × Node) := do
  let start ← offset
  let label ← attempt do
    let _ ← eat "..."
    let name ← anyWord
    let _ ← eat "?"
    expect ":"
    return name.ident
  let rest ← eat "..."
  let type ← rules.type
  let optional ← if rest then pure false else eat "?"
  let node ← close .type start (label.toList ++ [type])
  return (if rest then .rest else if optional then .optional else .required, node)

def tupleType : Reader Node := do
  let start ← offset
  expect "["
  let elements ← freely (commaList "]" (tupleElement rules))
  let roles := elements.map Prod.fst
  if (roles.dropWhile (· != .optional)).contains .required then throw (.unexpected start.offset)
  else close .type start (elements.map Prod.snd)

def typeQuery : Reader Node := do
  let start ← offset
  expectWord "typeof"
  let name ← if ← atWord "import" then rules.type else entityName
  let args ← typeArgumentsIfAny rules
  close .type start [name, args]

def importType : Reader Node := do
  let start ← offset
  expectWord "import"
  expect "("
  let source ← stringLiteral
  if ← eat "," then
    if !(← atPunct ")") then
      let _ ← rules.assignment
      let _ ← eat ","
  expect ")"
  let _ ← many do
    if ← eat "." then return some (← propertyWord)
    else return none
  let args ← typeArgumentsIfAny rules
  close .type start [source, args]

def thisType : Reader Node := do
  let start ← offset
  expectWord "this"
  let states := (← atWord "is") && !(← atNewline)
  if states then
    let _ ← next
  let type ← partIf states rules.type
  close .type start [type]

def primaryType : Reader Node := do
  let token ← peek
  let start := token.start
  match token.lexeme with
  | .string _ | .number _ _ | .bigint =>
    let _ ← next
    close .type start []
  | .punct "-" =>
    let _ ← next
    match (← peek).lexeme with
    | .number _ _ | .bigint =>
      let _ ← next
      close .type start []
    | _ => unexpected
  | .punct "`" => freely (template rules.type false)
  | .punct "\x7b" => if ← atMappedType then mappedType rules else typeMembers rules
  | .punct "[" => tupleType rules
  | .punct "(" =>
    let _ ← next
    let type ← freely rules.type
    expect ")"
    close .type start [type]
  | .word "typeof" false => typeQuery rules
  | .word "import" false => importType rules
  | .word "this" false => thisType rules
  | .word "void" false | .word "null" false | .word "true" false | .word "false" false =>
    let _ ← next
    close .type start []
  | .word "asserts" false =>
    let second ← peekSecond
    if second.lexeme == .word "this" false && !second.newline then
      let _ ← next
      thisType rules
    else namedType rules
  | _ => namedType rules

def postfixType : Reader Node := do
  let start ← offset
  let base ← primaryType rules
  extend (fun type => do
    if (← atNewline) || !(← atPunct "[") then return none
    else if (← peekSecond).lexeme == .punct "]" then
      let _ ← next
      let _ ← next
      return some (← close .type start [type])
    else
      let _ ← next
      let index ← freely rules.type
      expect "]"
      return some (← close .type start [type, index])) base

def inferBound : Reader Node := do
  let bound ← attempt do
    expectWord "extends"
    let type ← withReader (fun scope => { scope with noConditional := true }) rules.type
    if !(← read).noConditional && (← atPunct "?") then unexpected
    else return type
  match bound with
  | some type => return type
  | none => absent

def operatorType (rules : Rules) : Nat → Reader Node
  | 0 => throw .tooDeep
  | n + 1 => do
    let start ← offset
    if (← atWord "keyof") || (← atWord "unique") || (← atWord "readonly") then
      let _ ← next
      let type ← operatorType rules n
      close .type start [type]
    else if ← eatWord "infer" then
      let name ← typeName
      let bound ← inferBound rules
      close .type start [name, bound]
    else postfixType rules

def joinedType (operator : String) (item : Reader Node) : Reader Node := do
  let start ← offset
  let leading ← eat operator
  let first ← item
  let others ← many do
    if ← eat operator then return some (← item)
    else return none
  if leading || !others.isEmpty then close .type start (first :: others) else return first

def plainType : Reader Node := do
  let start ← offset
  let limit := (← read).limit
  let union := joinedType "|" (joinedType "&" (operatorType rules limit))
  let second := (← peekSecond).lexeme
  if ← atPunct "<" then functionType rules
  else if ← atWord "new" then
    let _ ← next
    let type ← functionType rules
    close .type start [type]
  else if (← atWord "abstract") && second == .word "new" false then
    let _ ← next
    let _ ← next
    let type ← functionType rules
    close .type start [type]
  else if (← atPunct "(") && (← atFunctionType rules) then functionType rules
  else union

def type : Reader Node := do
  let start ← offset
  let subject ← plainType rules
  if (← read).noConditional || (← atNewline) || !(← atWord "extends") then return subject
  else
    let _ ← next
    let bound ← withReader (fun scope => { scope with noConditional := true }) (plainType rules)
    expect "?"
    let yes ← freely rules.type
    expect ":"
    let no ← rules.type
    close .type start [subject, bound, yes, no]

def heritage : Reader (List Node) := do
  let first ← item
  let others ← many do
    if ← eat "," then return some (← item)
    else return none
  return first :: others
where
  item : Reader Node := do
    let start ← offset
    let name ← rules.callee
    let args ← typeArgumentsIfAny rules
    close .type start [name, args]

end Sveltify.Script.Grammar
