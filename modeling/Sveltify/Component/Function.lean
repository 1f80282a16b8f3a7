import Sveltify.Component.Part

/-! Functions of the generated script: heads, bodies and the statements of a render body. -/

namespace Sveltify

variable (source : Source)

namespace Function

def parameters (params : List Part) : Conversion String := do
  let texts ← params.mapM (render source)
  return ", ".intercalate (texts.map String.ofList)

def head (name : String) (params : List Part) (async generator : Bool) :
    Conversion String := do
  let list ← parameters source params
  let mark := if async then "async " else ""
  let star := if generator then "*" else ""
  return s!"{mark}function{star} {name}({list})"

def text (head : String) (body : Part) (anchor : Nat) : Conversion Text := do
  let margin ← marginAt source anchor
  let block ← render source body
  return Text.tidyBlankLines (Text.reindent (head.toList ++ ' ' :: block) margin [])

def declare (name : String) (function : Part) (anchor : Nat) :
    Conversion Unit := do
  match function with
  | .node _ (.function async generator) _ [params, _, body, _, _] =>
    let head ← head source name params.kids async generator
    if !body.isAbsent then
      let text ← text source head body anchor
      modify (·.addFunction (String.ofList text))
  | _ => pure ()

def declareArrow (name : String) (arrow : Part) (anchor : Nat) :
    Conversion Unit := do
  match arrow with
  | .node _ (.arrow async) _ (params :: body :: _) =>
    match body.kind with
    | .block =>
      let list ← parameters source params.kids
      let mark := if async then "async " else ""
      let text ← text source s!"{mark}function {name}({list})" body anchor
      modify (·.addFunction (String.ofList text))
    | _ =>
      let margin ← marginAt source anchor
      let value ← render source arrow
      let constant := s!"const {name} = ".toList ++ value ++ [';']
      modify (·.addFunction (String.ofList (Text.reindent constant margin [])))
  | _ => pure ()

def lifecycle (helper : String) (async : Bool) (body : Part) (anchor : Nat) :
    Conversion Unit := do
  modify (·.addHelper helper)
  let mark := if async then "async " else ""
  let text ← text source s!"{helper}({mark}() =>" body anchor
  modify (·.addFunction (String.ofList (text ++ ");".toList)))

end Function

/-- Adds the declared variable of a render body: functions are declared, a literal is an initial
value, and any other value is kept up to date by a reactive statement. -/
def convertVariable (anchor : Nat) (declarator : Part) : Conversion Unit := do
  match declarator.kids with
  | [target, value] =>
    let name := target.ident?.getD ""
    let inner := value.unparen
    let firstArgument := inner.arguments.head?.map Script.Tree.spreadValue
    if value.isAbsent then modify (·.withSymbols (·.addState name none))
    else
      match inner, firstArgument with
      | .node _ (.arrow _) _ _, _ => Function.declareArrow source name inner anchor
      | .node _ .functionExpr _ [_, function], _ => Function.declare source name function anchor
      | _, some argument =>
        if inner.isCallOf "useCallback" then
          let margin ← marginAt source anchor
          let callback ← render source argument
          let constant := s!"const {name} = ".toList ++ callback ++ [';']
          modify (·.addFunction (String.ofList (Text.reindent constant margin [])))
        else if inner.isCallOf "useMemo" then
          let factory ← renderDedented source argument
          modify (·.withSymbols (·.addState name none))
          modify (·.addReactive s!"$: {name} = ({String.ofList factory})();")
        else computed name value
      | _, none =>
        if inner.isLiteral then
          let initial ← render source value
          modify (·.withSymbols (·.addState name (some (String.ofList initial))))
        else computed name value
  | _ => pure ()
where
  computed (name : String) (value : Part) : Conversion Unit := do
    let text ← renderDedented source value
    modify (·.withSymbols (·.addState name none))
    modify (·.addReactive s!"$: {name} = {String.ofList text};")

def convertVariables (declaration : Part) : Conversion Bool := do
  let declarators := declaration.kids
  if ← consumeDeclaration source declarators then return true
  else if declarators.all fun d => (d.kids.head?.bind Script.Tree.ident?).isSome then
    declarators.forM (convertVariable source declaration.span.start)
    return true
  else return false

/-- When an effect runs: after every update, or once when the component is there. Effects with
dependencies have no such moment. -/
def effectHelper? (call : Part) : Option String :=
  match (call.arguments.tail.head?.map fun a => a.spreadValue.unparen : Option Part) with
  | none => some "afterUpdate"
  | some (.node _ .array _ []) => some "onMount"
  | some _ => none

def convertEffect (statement : Part) : Conversion Bool := do
  match statement.kids.map Script.Tree.unparen with
  | [call] =>
    match call.arguments.head?.map Script.Tree.spreadValue with
    | some callback =>
      if call.isCallOf "useEffect" || call.isCallOf "useLayoutEffect" then
        match effectHelper? call with
        | some helper =>
          modify (·.addHelper helper)
          let margin ← marginAt source statement.span.start
          let text ← render source callback
          let code := s!"{helper}(".toList ++ text ++ ");".toList
          modify (·.addFunction
            (String.ofList (Text.tidyBlankLines (Text.reindent code margin []))))
        | none =>
          let code ← renderDedented source statement
          modify (·.review source "effect with dependencies" (String.ofList code)
            statement.span.start)
        return true
      else return false
    | none => return false
  | _ => return false

def reviewLeftovers (reason : String) (statements : List Part) :
    Conversion Unit := do
  match statements with
  | [] => pure ()
  | first :: _ =>
    let texts ← statements.mapM (renderDedented source)
    let code := "\n".intercalate (texts.map String.ofList)
    modify (·.review source reason code first.span.start)

def convertStatement (statement : Part) : Conversion Bool := do
  match statement with
  | .node _ (.variableDecl _) _ _ => return !(← convertVariables source statement)
  | .node _ .functionDecl _ [name, function] =>
    match function with
    | .node _ (.function ..) _ [_, _, body, _, _] =>
      if !body.isAbsent then
        Function.declare source (name.ident?.getD "") function function.span.start
      return false
    | _ => return false
  | .node _ .expression _ _ => return !(← convertEffect source statement)
  | .node _ .empty _ _ => return false
  | _ => return true

def convertBody (reason : String) (statements : List Part) :
    Conversion (Option Part) := do
  let (body, markup) := match statements.getLast? with
    | some (.node _ .return _ [value]) => (statements.dropLast, value.present?)
    | _ => (statements, none)
  let leftovers ← body.filterM (convertStatement source)
  reviewLeftovers source reason leftovers
  return markup

end Sveltify
