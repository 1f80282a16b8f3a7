import Sveltify.Component.Function
import Sveltify.Component.Locate

/-! Conversion of class and function components into the parts of a script. -/

namespace Sveltify

def unsupportedLifecycle : List String := [
  "componentDidUpdate", "componentDidCatch", "componentWillMount", "componentWillReceiveProps",
  "componentWillUpdate", "getSnapshotBeforeUpdate", "shouldComponentUpdate",
  "UNSAFE_componentWillMount", "UNSAFE_componentWillReceiveProps", "UNSAFE_componentWillUpdate"]

def ignoredStatics : List String :=
  ["propTypes", "displayName", "contextType"]

variable (source : Source)

def reviewPart (reason : String) (part : Part) : Conversion Unit := do
  let code ← renderDedented source part
  modify (·.review source reason (String.ofList code) part.span.start)

def thisAssignment? (statement : Part) : Option (String × Part) :=
  match statement with
  | .node _ .expression _ [expression] =>
    match expression.unparen with
    | .node _ (.assign operator) _ [target, value] =>
      if operator == "=" then target.thisMember?.map (·, value) else none
    | _ => none
  | _ => none

def isSuperCall (statement : Part) : Bool :=
  match statement with
  | .node _ .expression _ [expression] =>
    match expression.unparen with
    | .node _ .call _ (.node _ .super _ _ :: _) => true
    | _ => false
  | _ => false

/-! Names that are known before any member is converted. -/

def addMethod (name : String) : Conversion Unit :=
  modify (·.withScope fun s => { s with methods := name :: s.methods })

def addReference (name : String) : Conversion Unit :=
  modify (·.withSymbols (·.addRef name))

/-- Registers what a member declares, so that a member of `this` means the same wherever it
stands. -/
def collectMember (member : Part) : Conversion Unit := do
  match member with
  | .node _ (.classMethod _ false) _ (key :: _) => key.keyName?.forM addMethod
  | .node _ (.classField false) _ (key :: value :: _) =>
    match key.keyName? with
    | some name =>
      if value.unparen.isFunction then addMethod name
      else if value.unparen.isCallOf "createRef" then addReference name
    | none => pure ()
  | .node _ .constructor _ [_, _, body] =>
    (body.kids.filterMap thisAssignment?).forM fun (name, value) =>
      if value.unparen.isCallOf "createRef" then addReference name else pure ()
  | _ => pure ()

/-! Members. -/

def isPlainEntry : Part → Bool
  | .node _ (.ident _) _ _ => true
  | .node _ .property _ (key :: _) => key.keyName?.isSome
  | _ => false

def registerInitialEntry (entry : Part) : Conversion Unit := do
  match entry with
  | .node _ .property _ [key, value] =>
    match key.keyName? with
    | some name =>
      let initial ← render source value
      modify (·.withSymbols (·.addInitialState name (some (String.ofList initial))))
    | none => pure ()
  | .node _ (.ident name) _ _ =>
    let initial ← render source entry
    modify (·.withSymbols (·.addInitialState name (some (String.ofList initial))))
  | _ => pure ()

/-- Registers an initial state object, and answers whether all its entries have plain keys; if not,
nothing is registered. -/
def registerInitialState (object : Part) : Conversion Bool := do
  if object.kids.all isPlainEntry then
    object.kids.forM (registerInitialEntry source)
    return true
  else return false

def registerDefault (entry : Part) : Conversion Unit := do
  match entry with
  | .node _ .property _ [key, value] =>
    match key.keyName? with
    | some name =>
      let text ← render source value
      modify (·.withSymbols (·.addProp name (some (String.ofList text))))
    | none => pure ()
  | .node _ (.ident name) _ _ => modify (·.withSymbols (·.addProp name (some name)))
  | _ => pure ()

def registerDefaults (object : Part) : Conversion Unit :=
  object.kids.forM (registerDefault source)

def convertConstructorStatement (statement : Part) : Conversion Bool := do
  if isSuperCall statement then return false
  else
    match thisAssignment? statement with
    | none => return true
    | some (name, value) =>
      let inner := value.unparen
      match inner.kind with
      | .object =>
        if name == "state" then return !(← registerInitialState source inner)
        else keep name value
      | .call =>
        if inner.isCallOf "createRef" then return false
        else if inner.calleeMember?.any (·.memberName? == some "bind") then return false
        else keep name value
      | _ => keep name value
where
  keep (name : String) (value : Part) : Conversion Bool := do
    if name == "state" then return true
    else
      let initial ← render source value
      modify (·.withSymbols (·.addState name (some (String.ofList initial))))
      return false

def convertConstructor (body : Part) : Conversion Unit := do
  let leftovers ← body.kids.filterM (convertConstructorStatement source)
  reviewLeftovers source "constructor" leftovers

def convertStaticField (field : Part) (name : String) (value : Part) :
    Conversion Unit :=
  let inner := value.unparen
  match inner.kind with
  | .object =>
    if name == "defaultProps" then registerDefaults source inner else other
  | _ => other
where
  other : Conversion Unit :=
    if ignoredStatics.contains name then pure ()
    else reviewPart source s!"static field `{name}`" field

def convertField (field : Part) : Conversion Unit := do
  match field with
  | .node _ (.classField static) span (key :: value :: _) =>
    match key.keyName? with
    | none => reviewPart source "computed class field" field
    | some name =>
      if static then convertStaticField source field name value
      else if value.isAbsent then modify (·.withSymbols (·.addState name none))
      else
        match value.unparen with
        | .node l .object s entries =>
          let consumed ← if name == "state" then
              registerInitialState source (.node l .object s entries)
            else pure false
          if !consumed then setInitial name value
        | .node l (.arrow async) s kids =>
          Function.declareArrow source name (.node l (.arrow async) s kids) span.start
        | .node _ .functionExpr _ [_, function] => Function.declare source name function span.start
        | inner => if inner.isCallOf "createRef" then pure () else setInitial name value
  | _ => pure ()
where
  setInitial (name : String) (value : Part) : Conversion Unit := do
    let initial ← render source value
    modify (·.withSymbols (·.addState name (some (String.ofList initial))))

def convertNamedMethod (method : Part) (name : String) (params : List Part)
    (async generator : Bool) (body : Part) : Conversion (Option Part) := do
  let anchor := method.span.start
  match name with
  | "render" => convertBody source "render logic" body.kids
  | "componentDidMount" => Function.lifecycle source "onMount" async body anchor *> pure none
  | "componentWillUnmount" => Function.lifecycle source "onDestroy" async body anchor *> pure none
  | _ =>
    if name == "componentDidUpdate" && params.isEmpty then
      Function.lifecycle source "afterUpdate" async body anchor
    else if unsupportedLifecycle.contains name then
      reviewPart source s!"lifecycle method `{name}`" method
    else if body.containsMarkup then
      reviewPart source s!"method `{name}` returning markup" method
    else
      let head ← Function.head source name params async generator
      let text ← Function.text source head body anchor
      modify (·.addFunction (String.ofList text))
    return none

def convertMethod (method : Part) : Conversion (Option Part) := do
  match method with
  | .node _ (.classMethod role static) _ [key, function] =>
    match key.keyName? with
    | none => reviewPart source "computed method" method *> pure none
    | some name =>
      if static || role != .method then reviewPart source s!"method `{name}`" method *> pure none
      else
        match function with
        | .node _ (.function async generator) _ [params, _, body, _, _] =>
          if body.isAbsent then return none
          else convertNamedMethod source method name params.kids async generator body
        | _ => return none
  | _ => return none

def isPrivate (member : Part) : Bool :=
  match member.kids with
  | .node _ (.privateName _) _ _ :: _ => true
  | _ => false

def convertMember (member : Part) : Conversion (Option Part) := do
  if isPrivate member then reviewPart source "class member" member *> pure none
  else
    match member.kind with
    | .constructor =>
      match member.kids with
      | [_, _, body] => convertConstructor source body *> pure none
      | _ => return none
    | .classField _ => convertField source member *> pure none
    | .classMethod _ _ => convertMethod source member
    | .empty => return none
    | _ => reviewPart source "class member" member *> pure none

def convertClass (members : List Part) : Conversion (Option Part) := do
  members.forM collectMember
  members.foldlM (fun markup member => do
    return (← convertMember source member) <|> markup) none

def convertParameter (pattern : Part) : Conversion Unit :=
  match pattern with
  | .node _ .objectPattern _ _ => registerProps source pattern
  | .node _ (.ident name) _ _ => modify (·.withScope fun s => { s with propsBag := some name })
  | .node _ .assignPattern _ (target :: _) =>
    match target.kind with
    | .objectPattern => registerProps source target
    | _ => pure ()
  | _ => pure ()

def hookDeclarators? : Part → Option (List Part)
  | .node _ (.variableDecl _) _ declarators =>
    if declarators.all isHook then some declarators else none
  | _ => none
where
  isHook (declarator : Part) : Bool :=
    match declarator.kids with
    | [_, value] =>
      value.unparen.isCallOf "useState" || value.unparen.isCallOf "useRef" ||
        value.unparen.isCallOf "createRef"
    | _ => false

def convertFunction (params : List Part) (body : Part) :
    Conversion (Option Part) := do
  params.head?.forM (convertParameter source)
  match body.kind with
  | .block =>
    (body.kids.filterMap hookDeclarators?).forM fun declarators => do
      let _ ← consumeDeclaration source declarators
    convertBody source "component logic" body.kids
  | _ => return some body

def convertComponent : ComponentSource Visit → Conversion (Option Part)
  | .ofMembers members => convertClass source members
  | .function params body => convertFunction source params body

/-! Module items around the component. -/

def convertStatic (component : String) (item : Part) : Conversion Bool := do
  match item with
  | .node _ .expression _ [expression] =>
    match expression.unparen with
    | .node _ (.assign "=") _ [target, value] =>
      if target.memberObject?.any fun object => object.unparen.ident? == some component then
        match target.memberName?, value.unparen with
        | some "defaultProps", .node l .object span entries =>
          registerDefaults source (.node l .object span entries)
          return true
        | some "defaultProps", _ => return false
        | some name, _ => return ignoredStatics.contains name
        | none, _ => return false
      else return false
    | _ => return false
  | _ => return false

def convertStatics (component : Option String) (items : List (Part × Nat)) :
    Conversion (List Nat) := do
  match component with
  | none => return []
  | some name =>
    let consumed ← items.filterM fun (item, _) => convertStatic source name item
    return consumed.map (·.2)

def convertModuleItem (item : Part) : Conversion Unit := do
  match item with
  | .node _ .import _ _ | .node _ .exportNamed _ _ | .node _ .exportAll _ _ => pure ()
  | .node _ .exportDecl _ [declaration] =>
    let code ← renderDedented source declaration
    modify (·.addModuleCode (String.ofList code))
  | .node _ .exportDefaultDecl _ _ | .node _ .exportDefaultExpr _ _ | .node _ .typeExport _ _ =>
    reviewPart source "module export" item
  | _ =>
    let code ← renderDedented source item
    modify (·.addModuleCode (String.ofList code))

def convertModuleCode (own : List Nat) (items : List (Part × Nat)) :
    Conversion Unit :=
  (items.filter fun (_, index) => !own.contains index).forM fun (item, _) =>
    convertModuleItem source item

end Sveltify
