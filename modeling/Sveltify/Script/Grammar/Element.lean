import Sveltify.Script.Grammar.Type

/-! Markup elements. Names, attribute strings and text between tags are read character by character,
since they follow other rules than the tokens of plain code. -/

namespace Sveltify.Script.Grammar

variable [Subject] (rules : Rules)

def nameStep (name : Text) (c : Char) : Option Text :=
  if (if name.isEmpty then Text.isIdStart c else Text.isIdContinue c || c == '-') then
    some (c :: name)
  else none

def elementWord : Reader (String × Extent) := do
  let token ← peek
  let (name, stop) := token.start.scan nameStep []
  if name.isEmpty then unexpected
  else
    resume stop
    return (String.ofList name.reverse, ⟨token.start, stop⟩)

def rangeFrom (start : Place) : Reader Extent := do
  return ⟨start, ← lastOffset⟩

def tagOf (name : String) (span : Extent) : Tag :=
  if named : Text.isName name.toList then .ident { name, span, named } else .word name span

def elementName : Reader (Tag × Extent) := do
  let start ← offset
  let (name, span) ← elementWord
  let tag ← do
    if ← eatChar ':' then
      let (part, partSpan) ← elementWord
      pure (Tag.namespaced (.word name span) (.word part partSpan) (← rangeFrom start))
    else
      extend (fun tag => do
        if ← eatChar '.' then
          let (part, partSpan) ← elementWord
          return some (.member tag (.word part partSpan) (← rangeFrom start))
        else return none) (tagOf name span)
  return (tag, ← rangeFrom start)

def bracedExpression (start : Place) : Reader Node := do
  let expression ← freely rules.expression
  expectChar '\x7d'
  close .jsxExpression start [expression]

def quotedStep (quote : Char) (r : Text × Bool) (c : Char) : Option (Text × Bool) :=
  if r.2 then none else if c == quote then some (r.1, true) else some (c :: r.1, false)

def attributeString (quote : Char) : Reader Node := do
  let start ← peek
  let ((text, closed), stop) := (start.start.advance 1).scan (quotedStep quote) ([], false)
  if closed then
    resume stop
    close (.string (String.ofList text.reverse)) start.start []
  else unexpected

def attributeValue : Reader Node := do
  let token ← peek
  match token.start.rest with
  | '"' :: _ => attributeString '"'
  | '\'' :: _ => attributeString '\''
  | '\x7b' :: _ =>
    let _ ← eatChar '\x7b'
    bracedExpression rules token.start
  | '<' :: _ =>
    let (node, stop) ← rules.element token.start
    resume stop
    return node
  | _ => unexpected

def elementAttribute : Reader Node := do
  if ← eatChar '\x7b' then
    let start ← offset
    expect "..."
    let expression ← freely rules.assignment
    let node ← close .spread start [expression]
    expectChar '\x7d'
    return node
  else
    let start ← offset
    let (name, span) ← elementWord
    let tag ← do
      if ← eatChar ':' then
        let (part, partSpan) ← elementWord
        pure (Tag.namespaced (.word name span) (.word part partSpan) (← rangeFrom start))
      else pure (.word name span)
    let value ← partIf (← eatChar '=') (attributeValue rules)
    return .attr tag value (← rangeFrom start)

def elementAttributes : Reader (List Node) :=
  many do
    if (← startsWith '>') || (← startsWith '/') then return none
    else return some (← elementAttribute rules)

def tagEnd (c : Char) : Reader Place := do
  if ← startsWith c then return (← peek).start.advance 1 else unexpected

def childExpression (start : Place) : Reader (Node × Place) := do
  let inner ← lastOffset
  if ← startsWith '\x7d' then
    let empty := Node.of .jsxEmpty ⟨inner, ← offset⟩ []
    let stop ← tagEnd '\x7d'
    return (.of .jsxExpression ⟨start, stop⟩ [empty], stop)
  else if ← eat "..." then
    let expression ← freely rules.expression
    let stop ← tagEnd '\x7d'
    return (.of .jsxSpreadChild ⟨start, stop⟩ [expression], stop)
  else
    let expression ← freely rules.expression
    let stop ← tagEnd '\x7d'
    return (.of .jsxExpression ⟨start, stop⟩ [expression], stop)

def textStep (blank : Bool) (c : Char) : Option Bool :=
  if c == '<' || c == '>' || c == '\x7b' || c == '\x7d' then none
  else some (blank && Text.isBlank c)

def childrenFrom (rules : Rules) : Nat → Place → Reader (List Node × Place)
  | 0, _ => throw .tooDeep
  | n + 1, place =>
    match place.rest with
    | [] => throw (.unexpected place.offset)
    | '<' :: '/' :: _ => return ([], place)
    | '<' :: _ => do
      let (node, stop) ← rules.element place
      let (nodes, final) ← childrenFrom rules n stop
      return (node :: nodes, final)
    | '\x7b' :: _ => do
      resume (place.advance 1)
      let (node, stop) ← childExpression rules place
      let (nodes, final) ← childrenFrom rules n stop
      return (node :: nodes, final)
    | '>' :: _ | '\x7d' :: _ => throw (.unexpected place.offset)
    | _ => do
      let (blank, stop) := place.scan textStep true
      let (nodes, final) ← childrenFrom rules n stop
      return (.of (.jsxText blank) ⟨place, stop⟩ [] :: nodes, final)

def fragmentTail (start : Place) : Reader (Node × Place) := do
  let body ← tagEnd '>'
  let (children, closing) ← childrenFrom rules (← read).limit body
  resume (closing.advance 2)
  let stop ← tagEnd '>'
  let opened := Node.of .jsxFragmentTag ⟨start, body⟩ []
  let closed := Node.of .jsxFragmentTag ⟨closing, stop⟩ []
  let kids := Node.of .list ⟨body, closing⟩ children
  return (.of .jsxFragment ⟨start, stop⟩ [opened, kids, closed], stop)

def element (start : Place) : Reader (Node × Place) := do
  resume (start.advance 1)
  if ← startsWith '>' then fragmentTail rules start
  else
    let (tag, tagSpan) ← elementName
    let name := Node.tagged tag tagSpan
    let args ← partIf ((← typescript) && (← startsWith '<')) (typeArguments rules)
    let attrs ← listOf (← elementAttributes rules)
    if ← eatChar '/' then
      let stop ← tagEnd '>'
      let opening := Node.of (.jsxOpening true) ⟨start, stop⟩ [name, attrs, args]
      let none := Node.absentAt stop
      let kids := Node.of .list ⟨stop, stop⟩ []
      return (.of .jsxElement ⟨start, stop⟩ [opening, kids, none], stop)
    else
      let body ← tagEnd '>'
      let opening := Node.of (.jsxOpening false) ⟨start, body⟩ [name, attrs, args]
      let (children, closing) ← childrenFrom rules (← read).limit body
      resume (closing.advance 2)
      let (closingTag, closingSpan) ← elementName
      let stop ← tagEnd '>'
      if closingTag.text == tag.text then
        let closed := Node.of .jsxClosing ⟨closing, stop⟩ [.tagged closingTag closingSpan]
        let kids := Node.of .list ⟨body, closing⟩ children
        return (.of .jsxElement ⟨start, stop⟩ [opening, kids, closed], stop)
      else throw (.unexpected closingSpan.start.offset)

end Sveltify.Script.Grammar
