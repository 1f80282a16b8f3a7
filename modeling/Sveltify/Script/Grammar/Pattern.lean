import Sveltify.Script.Grammar.Type

/-! Patterns, parameters and function bodies. -/

namespace Sveltify.Script.Grammar

variable [Subject] (rules : Rules)

def propertyKey : Reader Node := do
  let token ← peek
  match token.lexeme with
  | .word _ _ => propertyWord
  | .string _ => stringLiteral
  | .number mantissa exponent =>
    let _ ← next
    return .of (.number mantissa exponent) token.span []
  | .bigint =>
    let _ ← next
    return .of .bigint token.span []
  | .punct "[" =>
    let _ ← next
    let key ← freely rules.assignment
    expect "]"
    close .computed token.start [key]
  | _ => unexpected

def patternElement : Reader Node := do
  let start ← offset
  let target ← rules.pattern
  if ← eat "=" then
    let default ← freely rules.assignment
    close .assignPattern start [target, default]
  else return target

def restPattern : Reader Node := do
  let start ← offset
  expect "..."
  let target ← rules.pattern
  faultIf (← atPunct ",")
  close .rest start [target]

def arrayPatternElement : Reader Node := do
  let start ← offset
  if ← atPunct "," then return .of .hole ⟨start, start⟩ []
  else if ← atPunct "..." then restPattern rules
  else patternElement rules

def reservedName : Reader Node := do
  fault
  return (← anyWord).ident

def objectPatternProperty : Reader Node := do
  let start ← offset
  if ← atPunct "..." then
    let rest ← restPattern rules
    let named := rest.kids.all fun target => target.ident?.isSome
    if !named && (← atPunct "\x7d") then unexpected else return rest
  else
    let second := (← peekSecond).lexeme
    let short := second == .punct "," || second == .punct "=" || second == .punct "\x7d"
    if (← atAnyWord) && short then
      let name ← if ← atIdentifier then binding else reservedName
      let default ← partIf (← eat "=") (freely rules.assignment)
      close .defaulted start [name, default]
    else
      let key ← propertyKey rules
      expect ":"
      let value ← patternElement rules
      close .patternProperty start [key, value]

def pattern : Reader Node := do
  let token ← peek
  match token.lexeme with
  | .punct "[" =>
    let _ ← next
    let elements ← freely (commaList "]" (arrayPatternElement rules))
    close .arrayPattern token.start (elements ++ [← absent])
  | .punct "\x7b" =>
    let _ ← next
    let properties ← freely (commaList "\x7d" (objectPatternProperty rules))
    close .objectPattern token.start (properties ++ [← absent])
  | _ =>
    let name ← binding
    return .of name.kind name.span [← absent] name.isNamed_kind

def typedPattern : Reader Node := do
  let target ← rules.pattern
  let optional := (← typescript) && (← atPunct "?")
  if optional then
    let _ ← next
  let type ← ascriptionIfAny rules
  faultIf (optional && (← atPunct "="))
  return typed target type

def decorators : Reader Node := do
  let nodes ← many do
    if (← read).dialect.decorators && (← atPunct "@") then return some (← decorator)
    else return none
  listOf nodes
where
  decorator : Reader Node := do
    let start ← offset
    expect "@"
    let subject ← if ← atPunct "(" then parenthesized else named
    let typeArgs ← partIf ((← typescript) && (← startsWith '<')) (typeArguments rules)
    let call ← do
      if ← eat "(" then
        let args ← freely (commaList ")" rules.argument)
        close .call subject.span.start [subject, ← listOf args, typeArgs]
      else if typeArgs.isAbsent then pure subject
      else unexpected
    close .decorator start [call]
  parenthesized : Reader Node := do
    expect "("
    let inner ← freely rules.expression
    expect ")"
    return inner
  named : Reader Node := do
    extend (fun base => do
      if ← eat "." then
        let name ← match (← peek).lexeme with
          | .privateWord _ => privateName
          | _ => propertyWord
        return some (← close .member base.span.start [base, name])
      else return none) (← reference)

def eatStrayModifier : Reader Bool := do
  let named := match (← peekSecond).lexeme with
    | .word _ _ => true
    | other => other == .punct "\x7b" || other == .punct "["
  match (← peek).lexeme with
  | .word name false =>
    if (← typescript) && named && ["public", "protected", "private", "readonly"].contains name then
      let _ ← next
      return true
    else return false
  | _ => return false

def restParameter : Reader Node := do
  let start ← offset
  expect "..."
  let target ← rules.pattern
  if ← eat "=" then
    fault
    let _ ← rules.assignment
  faultIf (← eatIf (← typescript) "?")
  let type ← ascriptionIfAny rules
  faultIf (← atPunct ",")
  close .rest start [typed target type]

def plainParameter : Reader Node := do
  let stray ← eatStrayModifier
  faultIf stray
  let start ← offset
  let target ← typedPattern rules
  if ← eat "=" then
    faultIf (← read).ambient
    let default ← freely rules.assignment
    close .assignPattern start [target, default]
  else return target

def fieldParameter : Reader Node := do
  let access ← modifierOf ["public", "protected", "private"]
  let overrides ← modifierOf ["override"]
  let readonly ← modifierOf ["readonly"]
  let target ← plainParameter rules
  if access.isNone && overrides.isNone && readonly.isNone then return target
  else
    match target.kind with
    | .ident _ | .assignPattern => return target
    | _ => throw (.unexpected target.span.start.offset)

/-- A parameter of a function. Only a constructor has parameters that are `fields` as well. -/
def parameter (fields : Bool) : Reader Node := do
  let start ← offset
  let decorations ← decorators rules
  let target ← do
    if ← atPunct "..." then restParameter rules
    else if fields then fieldParameter rules
    else plainParameter rules
  close .parameter start [decorations, target]

def parameters (fields : Bool) : Reader Node := do
  expect "("
  listOf (← freely (withReader (fun scope => { scope with parameters := true })
    (commaList ")" (parameter rules fields))))

def functionScope (async generator : Bool) (scope : Scope) : Scope :=
  { scope with
    async, generator
    function := true
    parameters := false
    noIn := false
    colonAhead := false
    noConditional := false
    breakable := false
    loop := false
    labels := [] }

def plainScope (scope : Scope) : Scope :=
  { scope with method := false, field := false, target := true }

def memberScope (scope : Scope) : Scope :=
  { scope with method := true, field := false, target := true }

def isDirective : Node → Bool
  | .of .expression _ [.of (.string _) _ _] => true
  | _ => false

def asksForStrictCode : Node → Bool
  | .of .expression _ [.of (.string value) span _] =>
    value == "use strict" && span.stop.offset == span.start.offset + 12
  | _ => false

def checkStrictBody (patterns : List Node) (body : Node) : Reader Unit :=
  faultIf (!(patterns.all fun p => p.ident?.isSome) &&
    (body.kids.takeWhile isDirective).any asksForStrictCode)

def functionBody (params : Node) : Reader Node := do
  faultIf (← read).ambient
  let body ← rules.body
  checkStrictBody (params.kids.map (·.kid 1)) body
  return body

def isDefaulted : Node → Bool
  | .of .assignPattern _ _ => true
  | _ => false

/-- A function from its parameters on. Without `bodiless` it has a body. -/
def functionTail (start : Place) (decorations : Node)
    (async generator bodiless : Bool) : Reader Node :=
  withReader (functionScope async generator) do
    let generics ← typeParameters rules {}
    let params ← parameters rules false
    let answer ← answerAscriptionIfAny rules
    if ← atPunct "\x7b" then
      let body ← functionBody rules params
      close (.function async generator) start [params, decorations, body, generics, answer]
    else if bodiless then
      faultIf (params.kids.any fun p => isDefaulted (p.kid 1))
      semicolon
      close (.function async generator) start [params, decorations, ← absent, generics, answer]
    else unexpected

end Sveltify.Script.Grammar
