import Sveltify.Component.Draft
import Sveltify.Script.Shape
import Sveltify.Source.Edits

/-! Parts of a component source. Every node is labelled by what a walk does at it: members of props,
state and references lose what precedes their name, state updates become assignments, and
declarations that only unpack props or state are removed. Rendering a part runs its label and
applies the replacements that it records. -/

namespace Sveltify

open Script (Node)

structure Walk where
  draft : Draft
  edits : EditSet := .empty
  /-- The statements around the current place that stand in a list, the innermost first. -/
  statements : List Span := []
  deferred : List (Span × String) := []

abbrev Visit := StateM Walk Unit

abbrev Part := Script.Tree Visit

abbrev Conversion (α : Type) := StateM Draft α

variable (source : Source)

def render (part : Part) : Conversion Text := fun draft =>
  let walk := (part.label.run { draft }).2
  (walk.edits.render source part.span, walk.draft)

def marginAt (offset : Nat) : Conversion Nat := do
  modify (·.cut [offset])
  return (source.lineIndent offset).length

def renderDedented (part : Part) : Conversion Text := do
  let margin ← marginAt source part.span.start
  let text ← render source part
  return Text.tidyBlankLines (Text.reindent text margin [])

/-! Declarations that only feed the symbol table. -/

/-- Registers one property of a pattern that unpacks the props. A default becomes the prop's
default, another local name becomes a reactive statement, and a rest gets all other props. -/
def registerProp (property : Part) : Conversion Unit := do
  match property with
  | .node _ .defaulted _ [.node _ (.ident name) _ _, default] =>
    let value ← default.present?.mapM (render source)
    modify (·.withSymbols (·.addProp name (value.map String.ofList)))
  | .node _ .patternProperty _ [key, value] =>
    match key.keyName? with
    | none =>
      modify (·.report source .manualReview "computed prop destructuring needs manual review"
        key.span.start)
    | some name =>
      match value with
      | .node _ (.ident inner) _ _ =>
        modify (·.withSymbols (·.addProp name none))
        if inner != name then modify (·.addReactive s!"$: {inner} = {name};")
      | .node _ .assignPattern _ [target, default] =>
        let text ← render source default
        modify (·.withSymbols (·.addProp name (some (String.ofList text))))
        match target.ident? with
        | some inner => if inner != name then modify (·.addReactive s!"$: {inner} = {name};")
        | none => pure ()
      | other =>
        modify (·.withSymbols (·.addProp name none))
        modify (·.addReactive s!"$: ({source.sliceString other.span} = {name});")
  | .node _ .rest _ [.node _ (.ident name) _ _] =>
    modify (·.withSymbols (·.addState name (some "$$restProps")))
  | _ => pure ()

def registerProps (pattern : Part) : Conversion Unit :=
  pattern.kids.forM (registerProp source)

def unpackedState? {α : Type} : Script.Tree α → Option String
  | .node _ .defaulted _ (name :: _) => name.ident?
  | .node _ .patternProperty _ (key :: _) => key.keyName?
  | _ => none

def registerState (pattern : Part) : Conversion Unit :=
  (pattern.kids.filterMap unpackedState?).forM fun name =>
    modify (·.withSymbols (·.addState name none))

inductive DeclaratorRole where
  | props
  | state
  | stateHook
  | refHook
  | ref
deriving DecidableEq, Repr, Inhabited

def declaratorRole? {α : Type} (scope : ComponentScope) (declarator : Script.Tree α) :
    Option DeclaratorRole :=
  match declarator.kids with
  | [target, value] =>
    let init := value.unparen
    match target.kind with
    | .objectPattern =>
      if init.isThisMember "props" then some .props
      else if init.ident?.isSome && init.ident? == scope.propsBag then some .props
      else if init.isThisMember "state" then some .state
      else none
    | .arrayPattern => if init.isCallOf "useState" then some .stateHook else none
    | .ident _ =>
      if init.isCallOf "useRef" then some .refHook
      else if init.isCallOf "createRef" then some .ref
      else none
    | _ => none
  | _ => none

def registerStateHook (pattern call : Part) : Conversion Unit := do
  let names := pattern.kids.dropLast.map Script.Tree.ident?
  match names with
  | some name :: rest =>
    let initial ← (call.arguments.head?.map Script.Tree.spreadValue).mapM (render source)
    modify (·.withSymbols (·.addState name (initial.map String.ofList)))
    match rest.head?.join with
    | some setter =>
      modify (·.withScope fun s => { s with setters := s.setters.insert setter name })
    | none => pure ()
  | _ => pure ()

def registerDeclarator (declarator : Part) : Conversion Unit := do
  match declaratorRole? (← get).scope declarator, declarator.kids with
  | some .props, [target, _] => registerProps source target
  | some .state, [target, _] => registerState target
  | some .stateHook, [target, value] => registerStateHook source target value.unparen
  | some .refHook, [target, _] =>
    match target.ident? with
    | some name =>
      modify (·.withSymbols (·.addRef name))
      modify (·.withScope fun s => { s with hookRefs := name :: s.hookRefs })
    | none => pure ()
  | some .ref, [target, _] =>
    match target.ident? with
    | some name => modify (·.withSymbols (·.addRef name))
    | none => pure ()
  | _, _ => pure ()

def consumeDeclaration (declarators : List Part) : Conversion Bool := do
  let scope := (← get).scope
  if !declarators.isEmpty && declarators.all fun d => (declaratorRole? scope d).isSome then
    declarators.forM (registerDeclarator source)
    return true
  else return false

/-! What a walk does at the nodes of each kind. -/

namespace Visit

def modifyDraft (f : Draft → Draft) : Visit :=
  modify fun w => { w with draft := f w.draft }

def replace (span : Span) (text : Text) : Visit :=
  modify fun w => { w with edits := w.edits.replace span text }

def visitAll (parts : List Part) : Visit :=
  parts.forM Script.Tree.label

def rendered (span : Span) : StateM Walk Text := do
  return (← get).edits.render source span

def keptMembers : List String :=
  ["state", "setState", "forceUpdate", "context", "refs"]

def memberReplacement? {α : Type} (draft : Draft) (member : Script.Tree α) :
    Option (String × SymbolTable) :=
  let symbols := draft.symbols
  match member.memberObject?.map Script.Tree.unparen with
  | none => none
  | some object =>
    let name? := member.memberName?
    if object.isThis then
      name?.bind fun name =>
        if name == "props" then some ("$$props", symbols)
        else if keptMembers.contains name then none
        else if draft.scope.methods.contains name || symbols.isRef name then some (name, symbols)
        else some (name, symbols.addState name none)
    else if object.isThisMember "props" then
      name?.map fun name => (name, symbols.addProp name none)
    else if object.isThisMember "state" then
      name?.map fun name => (name, symbols.addState name none)
    else if object.memberObject?.isSome then
      if name? == some "current" then
        (object.thisMember?.filter symbols.isRef).map fun name => (name, symbols)
      else none
    else
      object.ident?.bind fun target =>
        if name? == some "current" && draft.scope.hookRefs.contains target then
          some (target, symbols)
        else if draft.scope.propsBag == some target then
          name?.map fun name => (name, symbols.addProp name none)
        else none

def visitMember (member : Part) : Visit := do
  match memberReplacement? (← get).draft member with
  | some (text, symbols) =>
    modifyDraft fun d => { d with symbols }
    replace member.span text.toList
  | none => visitAll member.kids

def isUpdateCall {α : Type} (call : Script.Tree α) : Bool :=
  call.calleeMember?.any (·.isThisMember "setState")

def plainEntry? {α : Type} : Script.Tree α → Option (String × Span)
  | .node _ .property _ [key, value] => key.keyName?.map fun name => (name, value.span)
  | .node _ (.ident name) span _ => some (name, span)
  | _ => none

/-- The assignments that an object of plain entries stands for, in order; nothing for an object with
any other entry. The values must have been visited. -/
def objectAssignments (object : Part) : StateM Walk (Option (List Text)) := do
  match object.kids.mapM plainEntry? with
  | none => return none
  | some entries =>
    let assignments ← entries.mapM fun (name, span) => do
      return name.toList ++ " = ".toList ++ (← rendered source span)
    entries.forM fun (name, _) => modifyDraft (·.withSymbols (·.addState name none))
    return some assignments

structure StateUpdate where
  assignments : List Text
  callback : Option Text

def stateUpdate (call : Part) : StateM Walk (Option StateUpdate) := do
  match call.arguments with
  | [] => return none
  | first :: rest =>
    match first.unparen with
    | .node l .object span entries =>
      match ← objectAssignments source (.node l .object span entries) with
      | none => return none
      | some assignments =>
        match rest.head?.map Script.Tree.spreadValue with
        | none => return some ⟨assignments, none⟩
        | some callback =>
          modifyDraft (·.addHelper "tick")
          let text ← rendered source callback.span
          return some ⟨assignments, some ("tick().then(".toList ++ text ++ [')'])⟩
    | _ => return none

def updateReason {α : Type} (call : Script.Tree α) : String :=
  match (call.arguments.head?.map fun a => a.spreadValue.unparen.kind : Option Script.Kind) with
  | some (.arrow _) | some .functionExpr => "state update with an updater function"
  | some .object => "state update with spread or computed keys"
  | _ => "state update without an object literal"

/-- Defers an update call without assignments: the statement around it is moved to manual review,
or, where there is none, the call itself. -/
def deferUpdate (call : Part) : Visit := do
  let reason := updateReason call
  match (← get).statements.head? with
  | some span =>
    modify fun w =>
      if w.deferred.any (·.1 == span) then w
      else { w with deferred := w.deferred ++ [(span, reason)] }
  | none =>
    let code ← rendered source call.span
    modifyDraft (·.review source reason (String.ofList code) call.span.start)
    replace call.span "undefined".toList

def moveToReview (span : Span) (reason : String) : Visit := do
  modifyDraft (·.cut (span.start :: source.statementCuts span))
  let margin := (source.lineIndent span.start).length
  let text ← rendered source span
  let code := Text.tidyBlankLines (Text.reindent text margin [])
  modifyDraft (·.review source reason (String.ofList code) span.start)
  modify fun w => { w with edits := w.edits.remove (source.statementRange span) }

def visitStatement (statement : Part) : Visit := do
  let span := statement.span
  modify fun w => { w with statements := span :: w.statements }
  statement.label
  modify fun w => { w with statements := w.statements.tail }
  match (← get).deferred.find? (·.1 == span) with
  | some (_, reason) =>
    modify fun w => { w with deferred := w.deferred.eraseP (·.1 == span) }
    moveToReview source span reason
  | none => pure ()

def visitUpdateStatement (span : Span) (call : Part) : Visit := do
  visitAll call.arguments
  match ← stateUpdate source call with
  | none => deferUpdate source call
  | some update =>
    let lines := (update.assignments ++ update.callback.toList).map (· ++ [';'])
    if lines.isEmpty then
      modifyDraft (·.cut (source.statementCuts span))
      modify fun w => { w with edits := w.edits.remove (source.statementRange span) }
    else
      modifyDraft (·.cut [span.start])
      replace span (Text.joinWith ('\n' :: source.lineIndent span.start) lines)

def visitUpdateCall (call : Part) : Visit := do
  visitAll call.arguments
  match ← stateUpdate source call with
  | none => deferUpdate source call
  | some update =>
    let parts := update.assignments ++ update.callback.toList
    replace call.span (['('] ++ Text.joinWith ", ".toList parts ++ [')'])

def boundMethod? {α : Type} (call : Script.Tree α) : Option (Script.Tree α) :=
  match call.calleeMember?, call.arguments with
  | some member, [argument] =>
    match argument.spreadValue.kind with
    | .this => if member.memberName? == some "bind" then member.memberObject? else none
    | _ => none
  | _, _ => none

def setVariable? {α : Type} (draft : Draft) (call : Script.Tree α) : Option String :=
  (call.callee?.bind Script.Tree.ident?).bind draft.scope.setters.get?

def visitSetterCall (call : Part) (target : String) : Visit := do
  visitAll call.arguments
  match call.arguments.head?.map Script.Tree.spreadValue with
  | none => replace call.span s!"{target} = undefined".toList
  | some argument =>
    let value := String.ofList (← rendered source argument.span)
    if argument.unparen.isFunction then
      replace call.span s!"{target} = ({value})({target})".toList
    else replace call.span s!"{target} = {value}".toList

def visitCall (call : Part) : Visit := do
  if isUpdateCall call then visitUpdateCall source call
  else
    match boundMethod? call with
    | some method =>
      method.label
      replace call.span (← rendered source method.span)
    | none =>
      match setVariable? (← get).draft call with
      | some target => visitSetterCall source call target
      | none => visitAll call.kids

def visitExpression (statement : Part) : Visit :=
  match statement.kids with
  | [expression] =>
    let call := expression.unparen
    if isUpdateCall call then visitUpdateStatement source statement.span call
    else visitAll statement.kids
  | _ => visitAll statement.kids

def visitVariables (declaration : Part) : Visit := do
  let walk ← get
  let (consumed, draft) := (consumeDeclaration source declaration.kids).run walk.draft
  if consumed then
    set { walk with
      draft := draft.cut (source.statementCuts declaration.span)
      edits := walk.edits.remove (source.statementRange declaration.span) }
  else visitAll declaration.kids

def ofNode (node : Node) (kids : List Part) : Visit :=
  let part : Part := .node (pure ()) node.kind node.span kids
  match node.kind, kids with
  | .block, statements => statements.forM (visitStatement source)
  | .switchCase, [test, body] => do
    test.label
    body.kids.forM (visitStatement source)
  | .member, _ => visitMember part
  | .expression, _ => visitExpression source part
  | .call, _ => visitCall source part
  | .variableDecl _, _ => visitVariables source part
  | .ident name, _ => do
    if (← get).draft.scope.propsBag == some name then replace node.span "$$props".toList
    visitAll kids
  | .this, _ =>
    modifyDraft (·.report source .unresolvedThis "`this` reference could not be rewritten"
      node.span.start)
  | _, _ => visitAll kids

end Visit

def Part.ofNode (node : Node) : Part :=
  node.relabel (Visit.ofNode source)

end Sveltify
