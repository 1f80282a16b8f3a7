import Sveltify.Script.Grammar.Object

/-! Arrow functions and parentheses. What stands between parentheses is read once, as expressions
with types where these may stand; the token after them says whether it is the parameters of an arrow
function. -/

namespace Sveltify.Script.Grammar

variable [Subject] (rules : Rules)

def isArrow (node : Node) : Bool :=
  match node.kind with
  | .arrow _ => true
  | _ => false

def assignmentOperators : List String := [
  "=", "+=", "-=", "*=", "/=", "%=", "**=", "<<=", ">>=", ">>>=", "&=", "|=", "^=", "&&=", "||=",
  "??="]

def assignmentFrom (left : Node) : Reader Node := do
  match (← peek).lexeme with
  | .punct text =>
    if assignmentOperators.contains text then
      demand (assignmentFit (← typescript) (← get).commas text left)
      let _ ← next
      let right ← rules.assignment
      close (.assign text) left.span.start [left, right]
    else return left
  | _ => return left

def conditionalFrom (test : Node) : Reader Node := do
  if ← eat "?" then
    let yes ← withReader (fun scope => { scope with noIn := false, colonAhead := true })
      rules.assignment
    expect ":"
    let no ← withReader (fun scope => { scope with colonAhead := false }) rules.assignment
    close .conditional test.span.start [test, yes, no]
  else return test

inductive Item where
  | expression (node : Node)
  | parameter (node : Node)

namespace Item

def node : Item → Node
  | .expression node | .parameter node => node

def isParameter : Item → Bool
  | .parameter _ => true
  | .expression _ => false

end Item

def parameterOf (node : Node) : Reader Node := do
  demand (elementFit (← get).commas true node)
  return toPattern node

def typedParameter (start : Place) (expression : Node) : Reader Node := do
  let target ← match expression with
    | .of .spread _ [inner] => parameterOf inner
    | _ => parameterOf expression
  let type ← ascriptionIfAny rules
  let named := if type.isAbsent then target else
    let parts := match target.kind with
      | .ident _ => [type]
      | _ => target.kids.dropLast ++ [type]
    .of target.kind ⟨target.span.start, type.span.stop⟩ parts target.isNamed_kind
  let whole ← match expression.kind with
    | .spread => close .rest start [named]
    | _ => pure named
  if ← eat "=" then
    let default ← rules.assignment
    close .assignPattern start [whole, default]
  else return whole

def atReference : Reader Bool := do
  match (← peek).lexeme with
  | .word name escaped =>
    return (← atIdentifier) && (escaped || (name != "await" && name != "yield"))
  | _ => return false

def itemExpression : Reader Node := do
  let start ← offset
  let spread ← atPunct "..."
  let named ← if spread then pure (isIdentifier (← peekSecond).lexeme) else atReference
  if (← typescript) && named then
    if ← eat "..." then
      let expression ← rules.operand
      close .spread start [expression]
    else
      let expression ← rules.operand
      if isArrow expression then return expression else assignmentFrom rules expression
  else rules.argument

def eatOptionalMark (node : Node) : Reader Bool := do
  let second := (← peekSecond).lexeme
  let ends := second == .punct ")" || followsParameter second
  if (← typescript) && (← atPunct "?") && ends then
    let _ ← next
    match node with
    | .of (.ident _) _ _ _ => return true
    | .of .spread _ [.of (.ident _) _ _ _] =>
      fault
      return true
    | _ => throw (.unexpected node.span.start.offset)
  else return false

def parenItem : Reader Item := do
  let stray ← eatStrayModifier
  let start ← offset
  let first ← itemExpression rules
  let optional ← eatOptionalMark first
  let asks := (← typescript) && (← atPunct "?")
  let node ← match first.kind with
    | .spread => pure first
    | _ => if asks then conditionalFrom rules first else pure first
  faultIf stray
  if optional || ((← typescript) && (← atPunct ":")) then
    return .parameter (← typedParameter rules start node)
  else return .expression node

structure Items where
  items : List Item
  comma : Bool
  stop : Place

def parenItems : Reader Items := do
  expect "("
  let items ← freely (many do
    if ← eat ")" then return none
    else
      let item ← parenItem rules
      if ← atPunct ")" then return some (item, false)
      else
        expect ","
        return some (item, true))
  return { items := items.map Prod.fst, comma := items.getLast?.any (·.2), stop := ← lastOffset }

namespace Items

def parameterAt (last comma : Bool) : Item → Reader Node
  | .parameter node => do
    match node.kind with
    | .rest => faultIf (!last || comma)
    | _ => pure ()
    return node
  | .expression node => do
    match node with
    | .of .spread _ [target] =>
      faultIf (!last || comma || isAssignment target)
      let pattern ← parameterOf target
      return .of .rest target.span [pattern]
    | _ => parameterOf node

def parametersFrom (comma : Bool) : List Item → Reader (List Node)
  | [] => return []
  | [item] => return [← parameterAt true comma item]
  | item :: rest => do
    let first ← parameterAt false comma item
    return first :: (← parametersFrom comma rest)

def parameters (items : Items) : Reader Node := do
  let nodes ← parametersFrom items.comma items.items
  faultIf (nodes.any hasTakenName)
  let start := (items.items.head?.map (·.node.span.start)).getD items.stop
  return .of .list ⟨start, items.stop⟩ nodes

def holdsDefault : Node → Bool
  | .of .object _ members => members.any fun
    | .of .defaulted _ _ => true
    | _ => false
  | _ => false

def expressions (items : Items) (spreads : Bool) : Reader (List Node) := do
  let nodes := items.items.map Item.node
  let spread := nodes.any fun
    | .of .spread _ _ => true
    | _ => false
  faultIf (nodes.any holdsDefault)
  if items.items.any Item.isParameter || (spread && !spreads) then unexpected else return nodes

def paren (items : Items) (start : Place) : Reader Node := do
  match ← items.expressions false with
  | [] => unexpected
  | [inner] => close .paren start [inner]
  | first :: rest =>
    let stop := (rest.getLast?.getD first).span.stop
    close .paren start [.of .sequence ⟨first.span.start, stop⟩ (first :: rest)]

def call (items : Items) (start : Place) (callee : Node) : Reader Node := do
  let nodes ← items.expressions true
  let args := Node.of .list ⟨callee.span.stop, items.stop⟩ nodes
  close .call start [callee, args, ← absent]

end Items

def arrowScope (async : Bool) (scope : Scope) : Scope :=
  { functionScope async false scope with noIn := scope.noIn, colonAhead := scope.colonAhead }

def arrowTail (start : Place) (async : Bool) (params generics answer : Node) :
    Reader Node := do
  if ← atNewline then unexpected
  else
    expect "=>"
    let body ← withReader (arrowScope async) do
      if ← atPunct "\x7b" then
        let body ← rules.body
        checkStrictBody params.kids body
        return body
      else rules.assignment
    close (.arrow async) start [params, body, generics, answer]

def bareArrow (start : Place) (async : Bool) : Reader Node := do
  let param ← binding
  let params ← listOf [param]
  arrowTail rules start async params (← absent) (← absent)

/-- An arrow function with a type between its parameters and its arrow, in the first branch of a
conditional: the colon after the arrow function shows that the one before it gives a type. -/
def answeringBranch (start : Place) (async : Bool) (items : Items) : Reader Node := do
  let answer ← answerAscription rules
  let params ← items.parameters
  let node ← arrowTail rules start async params (← absent) answer
  if ← atPunct ":" then return node else unexpected

def arrowAnswer : Reader (Option Node) := do
  if (← typescript) && (← atPunct ":") && !(← read).colonAhead then
    attempt do
      let answer ← answerAscription rules
      if ← atPunct "=>" then return answer else unexpected
  else return none

/-- What starts with an opening parenthesis: an arrow function, if one may stand there, or an
expression in parentheses. After the word `async`, which is given as `callee`, it is an asynchronous
function or a call of that name. -/
def parenthesized (start : Place) (callee : Option Node) (arrows : Bool) :
    Reader Node := do
  let async := callee.isSome
  let items ← parenItems rules
  let branch ← do
    if (← typescript) && (← read).colonAhead && (← atPunct ":") then
      attempt (answeringBranch rules start async items)
    else pure none
  match branch with
  | some node => return node
  | none =>
    let answer ← arrowAnswer rules
    if answer.isSome || items.items.any Item.isParameter || (← atPunct "=>") then
      if !arrows then unexpected
      let answer := answer.getD (Node.absentAt items.stop)
      let params ← items.parameters
      arrowTail rules start async params (← absent) answer
    else
      match callee with
      | some name => items.call start name
      | none => items.paren start

def genericHead : Reader (Node × Node × Node) := do
  let generics ← typeParameters rules { constant := false }
  let params ← withReader (functionScope true false) (parameters rules false)
  let answer ← answerAscriptionIfAny rules
  if ← atPunct "=>" then
    return (generics, .of .list params.span (params.kids.map (·.kid 1)), answer)
  else unexpected

def genericArrow : Reader Node := do
  let start ← offset
  let generics ← typeParameters rules {}
  let node ← withReader (fun scope => { scope with colonAhead := false }) rules.assignment
  match node with
  | .of (.arrow async) span [params, body, _, answer] =>
    return .of (.arrow async) ⟨start, span.stop⟩ [params, body, generics, answer]
  | _ => unexpected

end Sveltify.Script.Grammar
