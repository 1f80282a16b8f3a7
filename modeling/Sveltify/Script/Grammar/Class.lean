import Sveltify.Script.Grammar.Pattern

/-! Classes. -/

namespace Sveltify.Script.Grammar

variable [Subject] (rules : Rules)

structure Modifiers where
  declared : Bool := false
  guarded : Bool := false
  accessor : Bool := false
  static : Bool := false
  abstract : Bool := false
  overriding : Bool := false
  readonly : Bool := false

def opensParameters (typescript : Bool) (lexeme : Lexeme) : Bool :=
  lexeme == .punct "(" || (typescript && lexeme == .punct "<")

def atParameters : Reader Bool := do
  return opensParameters (← typescript) (← peek).lexeme

def endsField (typescript lines : Bool) (token : Token) : Bool :=
  match token.lexeme with
  | .punct text =>
    ["=", ";", "\x7d"].contains text || (typescript && ["!", ":"].contains text) ||
      (lines && token.newline)
  | .stop => lines
  | _ => lines && token.newline

def endsName (typescript lines : Bool) (token : Token) : Bool :=
  opensParameters typescript token.lexeme || endsField typescript lines token ||
    (typescript && token.lexeme == .punct "?")

def eatModifier (name : String) (lines : Bool) : Reader Bool := do
  if (← atWord name) && !endsName (← typescript) lines (← peekSecond) then
    let _ ← next
    return true
  else return false

def atStaticBlock : Reader Bool := do
  return (← atWord "static") && (← peekSecond).lexeme == .punct "\x7b"

/-- Takes one of the modifiers that may stand in any order. A repeated one, and one that another one
should follow, is a fault. -/
def looseModifier (found : Modifiers) : Reader (Option Modifiers) := do
  if ← atStaticBlock then return none
  else
    match ← modifierOf ["abstract", "readonly", "override", "static"] with
    | some "abstract" =>
      faultIf (found.abstract || found.overriding || found.readonly)
      return some { found with abstract := true }
    | some "readonly" =>
      faultIf found.readonly
      return some { found with readonly := true }
    | some "override" =>
      faultIf (found.overriding || found.readonly || found.declared || !(← read).derived)
      return some { found with overriding := true }
    | some _ =>
      faultIf found.overriding
      return some { found with static := true }
    | none => return none

def modifiers : Reader Modifiers := do
  let typed ← typescript
  let early ← if typed then eatModifier "declare" true else pure false
  let guard ← modifierOf ["public", "protected", "private"]
  let late ← if typed && !early then eatModifier "declare" true else pure false
  let accessor ← if typed then eatModifier "accessor" true else pure false
  let static ← if ← atStaticBlock then pure false else eatModifier "static" false
  let found ← extend looseModifier
    { declared := early || late, guarded := guard.isSome, accessor, static }
  let late ← if typed && !accessor then eatModifier "accessor" true else pure false
  return { found with accessor := accessor || late }

def classKey : Reader Node := do
  match (← peek).lexeme with
  | .privateWord name =>
    faultIf (name == "constructor")
    privateName
  | _ => propertyKey rules

def isConstructorKey (key : Node) : Bool :=
  match key.kind with
  | .word name => name == "constructor"
  | .string value => value == "constructor"
  | _ => false

def fieldScope (scope : Scope) : Scope :=
  { scope with method := true, field := true, noIn := false, colonAhead := false }

def checkPrivateName (key : Node) (found : Modifiers) : Reader Unit :=
  match key.kind with
  | .privateName _ => faultIf (found.guarded || found.declared || found.abstract)
  | _ => pure ()

/-- A field from what follows its key and the mark of an optional one. It is not called like a
constructor, and a line that does not end after it is a fault. -/
def fieldTail (start : Place) (decorations key : Node) (found : Modifiers)
    (optional : Bool) : Reader Node := do
  if isConstructorKey key then unexpected
  checkPrivateName key found
  if (← typescript) && !optional && (← atPunct "!") then
    let _ ← next
  let type ← ascriptionIfAny rules
  let value ← partIf (← eat "=") (withReader fieldScope rules.assignment)
  faultIf (found.abstract && (!value.isAbsent || (!found.accessor && !(← read).abstract)))
  if !(← eat ";") then faultIf !(← atStatementEnd)
  close (if found.accessor then .accessor else .classField found.static) start
    [key, value, type, decorations]

def constructorTail (start : Place) (key : Node) : Reader Node :=
  withReader (fun scope => memberScope (functionScope false false scope)) do
    let generics ← typeParameters rules {}
    let params ← parameters rules true
    let answer ← ascriptionIfAny rules
    faultIf !(generics.isAbsent && answer.isAbsent)
    if ← atPunct "\x7b" then
      let body ← functionBody rules params
      close .constructor start [key, params, body]
    else if ← typescript then
      faultIf (params.kids.any fun p => isDefaulted (p.kid 1))
      semicolon
      close .constructor start [key, params, ← absent]
    else unexpected

def methodTail (start : Place) (decorations key : Node) (found : Modifiers)
    (role : MethodRole) (async generator : Bool) : Reader Node := do
  let function ← withReader memberScope
    (functionTail rules start decorations async generator (← typescript))
  checkPrivateName key found
  faultIf (found.abstract && (!(function.kid 2).isAbsent || !(← read).abstract))
  close (.classMethod role found.static) start [key, function]

def checkAccessorParameters (role : MethodRole) (patterns : List Node) : Reader Unit :=
  let own := patterns.filter fun p => p.ident? != some "this"
  match role, own with
  | .getter, [] => pure ()
  | .setter, [.of .rest _ _] => fault
  | .setter, [_] => pure ()
  | _, _ => fault

def accessorTail (start : Place) (decorations : Node) (found : Modifiers)
    (role : MethodRole) : Reader Node := do
  let key ← classKey rules
  faultIf (found.readonly || isConstructorKey key)
  let node ← methodTail rules start decorations key found role false false
  checkAccessorParameters role (((node.kid 1).kid 0).kids.map (·.kid 1))
  return node

def asyncTail (start : Place) (decorations : Node) (found : Modifiers) :
    Reader Node := do
  let overriding ← modifierOf ["override"]
  let generator ← eat "*"
  let key ← classKey rules
  if isConstructorKey key then unexpected
  faultIf (overriding.isSome || found.readonly)
  let _ ← eatIf (← typescript) "?"
  methodTail rules start decorations key found .method true generator

def callableTail (start : Place) (decorations key : Node) (found : Modifiers) :
    Reader Node := do
  faultIf found.declared
  if found.readonly then unexpected
  else if isConstructorKey key then
    faultIf (found.static || found.abstract || found.overriding)
    constructorTail rules start key
  else methodTail rules start decorations key found .method false false

def memberTail (start : Place) (decorations : Node) (found : Modifiers) :
    Reader Node := do
  let typed ← typescript
  if ← eat "*" then
    let key ← classKey rules
    faultIf (found.readonly || isConstructorKey key)
    methodTail rules start decorations key found .method false true
  else
    let key ← classKey rules
    let optional ← eatIf typed "?"
    let token ← peek
    let role := match key.kind with
      | .word "get" => some MethodRole.getter
      | .word "set" => some .setter
      | _ => none
    let accessor := role.filter fun _ =>
      !endsField typed false token && !(token.newline && token.lexeme == .punct "*")
    if ← atParameters then callableTail rules start decorations key found
    else
      match accessor with
      | some role => accessorTail rules start decorations found role
      | none =>
        if endsField typed true token then
          fieldTail rules start decorations key found optional
        else
          match key.kind with
          | .word "async" => asyncTail rules start decorations found
          | _ => unexpected

def classMember : Reader Node := do
  let start ← offset
  if ← eat ";" then close .empty start []
  else
    withReader (fun scope => { scope with method := true, target := true }) do
      let decorations ← decorators rules
      let found ← modifiers
      if (← atStaticBlock) || (found.static && (← atPunct "\x7b")) then
        faultIf (found.declared || found.guarded || found.abstract || found.overriding ||
          found.readonly)
        let _ ← eatWord "static"
        let block ← withReader fieldScope rules.body
        close .staticBlock start [block]
      else if !(found.guarded || found.abstract || found.overriding) && (← atIndexSignature) then
        let parts ← indexSignature rules
        typeMemberEnd
        close .typeMember start parts
      else memberTail rules start decorations found

def isFullConstructor : Node → Bool
  | .of .constructor _ [_, _, body] => !body.isAbsent
  | _ => false

def classTail (start : Place) (decorations : Node) (abstract : Bool) :
    Reader Node := do
  let generics ← typeParameters rules { variance := true }
  let parent ← partIf (← eatWord "extends") rules.leftHand
  let (base, args) ← do
    match parent with
    | .of .instantiation _ [base, args] => pure (base, args)
    | _ =>
      let args ← partIf ((← typescript) && !parent.isAbsent && (← startsWith '<'))
        (typeArguments rules)
      pure (parent, args)
  let implemented ← do
    if (← typescript) && (← atWord "implements") then
      let _ ← next
      heritage rules
    else pure []
  expect "\x7b"
  let members ← freely (withReader
    (fun scope => { scope with derived := !parent.isAbsent, abstract })
    (many do if ← eat "\x7d" then return none else return some (← rules.classMember)))
  faultIf ((members.filter isFullConstructor).length > 1 && !(← read).ambient)
  let implementedNode ← listOf implemented
  let memberNode ← listOf members
  close .classBody start [decorations, memberNode, base, generics, args, implementedNode]

def className : Reader Node := do
  if ← atWord "let" then unexpected
  else if (← atIdentifier) && !(← atWord "implements") then
    let name ← binding
    checkTypeName name
    return name
  else absent

def classExpression (start : Place) (decorations : Node) (abstract : Bool) :
    Reader Node := do
  expectWord "class"
  let name ← className
  let body ← classTail rules start decorations abstract
  close .classExpr start [name, body]

end Sveltify.Script.Grammar
