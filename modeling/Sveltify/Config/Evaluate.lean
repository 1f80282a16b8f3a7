import Sveltify.Config.Value
import Sveltify.Path
import Sveltify.Script.Parse
import Sveltify.Script.Shape
import Sveltify.Source.Basic

/-! Evaluation of configuration scripts. A script is not run: its constants and the value that it
exports are computed from literals, strings put together, lists, records, earlier constants and the
functions on paths. -/

namespace Sveltify.Config

open Script (Node)

inductive Fault where
  | unsupported (line : Nat) (expression : String)
  | undefined (line : Nat) (name : String)
  | noExport
deriving DecidableEq, Repr, Inhabited

/-- What a name stands for; one whose value is unknown is a fault only where it is used. -/
inductive Binding where
  | known (value : Value)
  | unknown (line : Nat) (expression : String)
deriving Inhabited

def countLineEnds : Text → Nat
  | [] => 0
  | '\r' :: '\n' :: rest => countLineEnds rest + 1
  | c :: rest => countLineEnds rest + (if c == '\n' || c == '\r' then 1 else 0)

structure Scope where
  source : Source
  directory : Path
  bindings : Table Binding := []

namespace Scope

def line (s : Scope) (span : Span) : Nat :=
  countLineEnds (s.source.slice ⟨0, span.start⟩) + 1

def unsupported (s : Scope) (span : Span) : Fault :=
  .unsupported (s.line span) (s.source.sliceString span)

def keyText? : Node → Option String
  | .of (.word name) _ _ => some name
  | .of (.string value) _ _ => some value
  | .of (.number mantissa exponent) _ _ => some (Double.ofDecimal mantissa exponent).text
  | _ => none

def lookup (s : Scope) (name : String) (span : Span) : Except Fault Value :=
  if name == "__dirname" then .ok (.string s.directory.toString)
  else if name == "undefined" then .ok .null
  else
    match s.bindings.get? name with
    | some (.known value) => .ok value
    | some (.unknown line expression) => .error (.unsupported line expression)
    | none => .error (.undefined (s.line span) name)

def textOf (s : Scope) (value : Value) (span : Span) : Except Fault String :=
  match value.text? with
  | some text => .ok text
  | none => .error (s.unsupported span)

def addValues (s : Scope) (left right : Value) (leftSpan rightSpan : Span) : Except Fault Value :=
  match left, right with
  | .number a, .number b => .ok (.number (a.add b))
  | _, _ => do return .string ((← s.textOf left leftSpan) ++ (← s.textOf right rightSpan))

/-- A path put together from segments: a later absolute segment starts anew in one that is resolved,
and is only a further part in one that is joined. -/
def applyPath (s : Scope) (function : PathFunction) (segments : List String) : Path :=
  let texts := segments.map String.toList
  let extend := fun (path : Path) (part : Text) => path.join ⟨part⟩
  let path := match function, texts with
    | .resolve, _ => texts.foldl extend s.directory
    | .join, [] => Path.empty
    | .join, first :: rest =>
      (rest.map fun (part : Text) => part.dropWhile (· == '/')).foldl extend ⟨first⟩
  path.normalize

def isPathModule : Option (Except Fault Value) → Bool
  | some (.ok (.string name)) => name == "path" || name == "node:path"
  | _ => false

mutual

def evaluate (s : Scope) : Node → Except Fault Value
  | .of .paren _ [inner] => evaluate s inner
  | .of (.string value) _ _ => .ok (.string value)
  | .of (.number mantissa exponent) _ _ => .ok (.number (Double.ofDecimal mantissa exponent))
  | .of (.bool value) _ _ => .ok (.bool value)
  | .of .null _ _ => .ok .null
  | .of (.regex pattern flags) _ _ => .ok (.regex pattern flags)
  | .of (.template raw) _ (.of _ _ parts :: _) => do
    return .string (← evaluateTemplate s raw parts)
  | .of (.ident name) span _ => s.lookup name span
  | .of (.binary operator) span [left, right] =>
    if operator == "+" then do
      let leftValue ← evaluate s left
      let rightValue ← evaluate s right
      s.addValues leftValue rightValue left.span right.span
    else .error (s.unsupported span)
  | .of .array _ elements => do return .list (← evaluateElements s elements)
  | .of .object _ properties => do return .record (← evaluateProperties s [] properties)
  | .of .member span [object, property] => do
    let value ← evaluate s object
    let name ← evaluateProperty s span property
    match value.member? name with
    | some value => return value
    | none => throw (s.unsupported span)
  | .of .call span [callee, .of _ _ args, _] => do
    match callee.kind with
    | .super | .importWord => throw (s.unsupported span)
    | _ =>
      if callee.ident? == some "require" then
        if isPathModule (evaluateFirst s args) then return .pathModule
        else throw (s.unsupported span)
      else
        match ← evaluate s callee with
        | .pathFunction function =>
          let segments ← evaluateSegments s span args
          return .string (s.applyPath function segments).toString
        | _ => throw (s.unsupported span)
  | .of _ span _ => .error (s.unsupported span)

def evaluateTemplate (s : Scope) : List String → List Node → Except Fault String
  | piece :: raw, part :: rest => do
    let value ← evaluate s part
    let text ← s.textOf value part.span
    return piece ++ text ++ (← evaluateTemplate s raw rest)
  | raw, _ => .ok (String.join raw)

def evaluateElements (s : Scope) : List Node → Except Fault (List Value)
  | [] => .ok []
  | .of .hole _ _ :: rest => do return .null :: (← evaluateElements s rest)
  | .of .spread _ [element] :: rest => do
    match ← evaluate s element with
    | .list items => return items ++ (← evaluateElements s rest)
    | _ => throw (s.unsupported element.span)
  | element :: rest => do
    let value ← evaluate s element
    return value :: (← evaluateElements s rest)

def evaluateProperties (s : Scope) (done : Table Value) : List Node → Except Fault (Table Value)
  | [] => .ok done
  | .of .spread _ [part] :: rest => do
    match ← evaluate s part with
    | .record fields =>
      evaluateProperties s (fields.foldl (fun t (key, value) => t.insert key value) done) rest
    | _ => throw (s.unsupported part.span)
  | .of .property _ [key, part] :: rest => do
    match keyText? key with
    | some name =>
      let value ← evaluate s part
      evaluateProperties s (done.insert name value) rest
    | none => throw (s.unsupported key.span)
  | .of (.ident name) span _ :: rest => do
    let value ← s.lookup name span
    evaluateProperties s (done.insert name value) rest
  | other :: _ => .error (s.unsupported other.span)

def evaluateProperty (s : Scope) (span : Span) : Node → Except Fault String
  | .of (.word name) _ _ => .ok name
  | .of .computed _ [key] => do
    match ← evaluate s key with
    | .string name => return name
    | _ => throw (s.unsupported span)
  | _ => .error (s.unsupported span)

def evaluateFirst (s : Scope) : List Node → Option (Except Fault Value)
  | [] => none
  | .of .spread _ [arg] :: _ => some (evaluate s arg)
  | arg :: _ => some (evaluate s arg)

def evaluateSegments (s : Scope) (call : Span) : List Node → Except Fault (List String)
  | [] => .ok []
  | .of .spread _ _ :: _ => .error (s.unsupported call)
  | arg :: rest => do
    let value ← evaluate s arg
    let text ← s.textOf value arg.span
    return text :: (← evaluateSegments s call rest)

end

def unknown (s : Scope) (span : Span) : Binding :=
  .unknown (s.line span) (s.source.sliceString span)

def bind (s : Scope) (name : String) (binding : Binding) : Scope :=
  { s with bindings := s.bindings.insert name binding }

def bindMember (value : Option Value) (s : Scope) (property : Node) : Scope :=
  let names : Option (String × String) := match property with
    | .of .defaulted _ (.of (.ident name) _ _ :: _) => some (name, name)
    | .of .patternProperty _ [key, .of (.ident name) _ _] => (keyText? key).map (·, name)
    | _ => none
  match names with
  | none => s
  | some (key, name) =>
    match value.bind (·.member? key) with
    | some member => s.bind name (.known member)
    | none => s.bind name (s.unknown property.span)

def declare (s : Scope) (declarator : Node) : Scope :=
  match declarator.kids with
  | [target, initial] =>
    if initial.isAbsent then s
    else
      let value := (s.evaluate initial).toOption
      match target with
      | .of (.ident name) _ _ =>
        s.bind name (match value with
          | some value => .known value
          | none => s.unknown initial.span)
      | .of .objectPattern _ properties => properties.foldl (bindMember value) s
      | _ => s
  | _ => s

def exported? (s : Scope) : Node → Except Fault (Option Value)
  | .of .expression _ [.of (.assign operator) _
      [.of .member _ [.of (.ident object) _ _, .of (.word property) _ _], value]] =>
    if operator == "=" && object == "module" && property == "exports" then
      some <$> s.evaluate value
    else .ok none
  | .of .exportDefaultExpr _ [value] => some <$> s.evaluate value
  | _ => .ok none

def run : Scope → Option Value → List Node → Except Fault (Option Value)
  | _, found, [] => .ok found
  | s, found, .of (.variableDecl _) _ declarators :: rest =>
    run (declarators.foldl declare s) found rest
  | s, found, item :: rest => do
    let value ← s.exported? item
    run s (value <|> found) rest

end Scope

def evaluateItems (scope : Scope) (items : List Node) : Except Fault Value := do
  match ← scope.run none items with
  | some value => return value
  | none => throw .noExport

def dropMark : Text → Text
  | '\ufeff' :: rest => rest
  | text => text

def dialect : Script.Dialect :=
  { jsx := false, typescript := false, decorators := false }

end Sveltify.Config
