import Sveltify.Script.Grammar.Class
import Sveltify.Script.Grammar.Target

/-! Arguments, arrays and objects. -/

namespace Sveltify.Script.Grammar

variable [Subject] (rules : Rules)

def spreadable : Reader Node := do
  let start ← offset
  if ← eat "..." then
    let expression ← rules.assignment
    close .spread start [expression]
  else rules.assignment

def arguments : Reader Node := do
  let start ← offset
  expect "("
  let nodes ← freely (commaList ")" (spreadable rules))
  close .list start nodes

def noteComma (start : Place) : Reader Unit :=
  modify fun s => { s with commas := start.offset :: s.commas }

def structureParts (start : Place) (closing : String) (part : Reader Node) : Reader (List Node) :=
  many do
    if ← eat closing then return none
    else
      let node ← part
      if ← atPunct closing then return some node
      else
        expect ","
        match node.kind with
        | .spread => if ← atPunct closing then noteComma start
        | _ => pure ()
        return some node

def arrayElement : Reader Node := do
  let start ← offset
  if ← atPunct "," then return .of .hole ⟨start, start⟩ []
  else spreadable rules

def arrayLiteral : Reader Node := do
  let start ← offset
  expect "["
  close .array start (← freely (structureParts start "]" (arrayElement rules)))

def objectAccessor (start : Place) (role : MethodRole) : Reader Node := do
  let key ← propertyKey rules
  withReader (fun scope => memberScope (functionScope false false scope)) do
    let _ ← typeParameters rules {}
    let params ← parameters rules false
    let patterns := params.kids.map (·.kid 1)
    checkAccessorParameters role patterns
    let answer ← answerAscriptionIfAny rules
    let body ← functionBody rules params
    match role with
    | .setter => close .setter start [key, patterns.getLast?.getD (← absent), body]
    | _ => close .getter start [key, answer, body]

def objectMethod (key : Node) (async generator : Bool) : Reader Node := do
  let start := key.span.start
  let decorations ← listOf []
  let function ← withReader memberScope
    (functionTail rules start decorations async generator false)
  close .method start [key, function]

def shorthand (key : Word) : Reader Node := do
  let generator := (← read).generator
  let taken := match key.name with
    | "yield" => generator
    | "await" => true
    | name => reservedWords.contains name || strictWords.contains name
  faultIf taken
  if ← eat "=" then
    let default ← rules.assignment
    close .defaulted key.span.start [key.ident, default]
  else return key.ident

/-- A member of an object that starts with a word after which neither a value nor parameters
follow: the word stands for itself, or it says what the member is whose name follows. -/
def wordMember (key : Word) (stray : Bool) : Reader Node := do
  if (← atPunct "=") || (← atPunct ",") || (← atPunct "\x7d") then shorthand rules key
  else
    faultIf stray
    match key.name with
    | "get" => objectAccessor rules key.span.start .getter
    | "set" => objectAccessor rules key.span.start .setter
    | "async" =>
      let generator ← eat "*"
      let own ← propertyKey rules
      objectMethod rules own true generator
    | _ => unexpected

def objectMember : Reader Node := do
  if ← atPunct "..." then spreadable rules
  else if ← eat "*" then
    let key ← propertyKey rules
    objectMethod rules key false true
  else
    let stray ← eatStrayModifier
    let key ← propertyKey rules
    if ← eat ":" then
      let value ← rules.assignment
      close .property key.span.start [key, value]
    else if ← atParameters then objectMethod rules key false false
    else
      faultIf (← eatIf (← typescript) "?")
      match key with
      | .of (.word name) span _ named => wordMember rules { name, span, named } stray
      | _ => unexpected

def objectLiteral : Reader Node := do
  let start ← offset
  expect "\x7b"
  close .object start (← freely (structureParts start "\x7d" (objectMember rules)))

end Sveltify.Script.Grammar
