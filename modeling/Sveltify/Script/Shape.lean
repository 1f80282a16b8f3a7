import Sveltify.Script.Tree

/-! Shapes of expressions and patterns that a conversion looks for. -/

namespace Sveltify.Script.Tree

variable {α : Type}

def memberName? : Tree α → Option String
  | .node _ .member _ [_, .node _ (.word name) _ _] => some name
  | _ => none

def memberObject? : Tree α → Option (Tree α)
  | .node _ .member _ [object, _] => some object
  | _ => none

def isThis (t : Tree α) : Bool :=
  match t.unparen.kind with
  | .this => true
  | _ => false

def thisMember? (t : Tree α) : Option String :=
  if t.memberObject?.any isThis then t.memberName? else none

def isThisMember (name : String) (t : Tree α) : Bool :=
  t.thisMember? == some name

def callee? : Tree α → Option (Tree α)
  | .node _ .call _ (callee :: _) => some callee
  | _ => none

def arguments : Tree α → List (Tree α)
  | .node _ .call _ [_, .node _ .list _ args, _] => args
  | .node _ .new _ [_, .node _ .list _ args, _] => args
  | _ => []

def calleeMember? (call : Tree α) : Option (Tree α) :=
  (call.callee?.map unparen).filter fun t => match t.kind with
    | .member => true
    | _ => false

def calledName? (call : Tree α) : Option String :=
  match call.callee?.map unparen with
  | some (.node _ (.ident name) _ _) => some name
  | some member =>
    if member.memberObject?.any fun object => object.unparen.ident?.isSome then member.memberName?
    else none
  | none => none

def isCallOf (name : String) (t : Tree α) : Bool :=
  t.calledName? == some name

def spreadValue : Tree α → Tree α
  | .node _ .spread _ [value] => value
  | t => t

def keyName? : Tree α → Option String
  | .node _ (.word name) _ _ => some name
  | .node _ (.string value) _ _ => some value
  | _ => none

def isFunction (t : Tree α) : Bool :=
  match t.kind with
  | .arrow _ | .functionExpr => true
  | _ => false

def isSignable (t : Tree α) : Bool :=
  match t.kind with
  | .number _ _ | .bool _ => true
  | _ => false

mutual

def isLiteral : Tree α → Bool
  | .node _ .paren _ [inner] => inner.isLiteral
  | .node _ (.string _) _ _ | .node _ (.number _ _) _ _ | .node _ .bigint _ _
  | .node _ (.bool _) _ _ | .node _ .null _ _ => true
  | .node _ (.template _) _ [.node _ _ _ parts] => parts.isEmpty
  | .node _ (.unary operator) _ [operand] =>
    ["-", "+", "!"].contains operator && operand.isSignable
  | .node _ .array _ elements => areLiteral elements
  | .node _ .object _ properties => haveLiteralValues properties
  | .node _ (.ident name) _ _ => name == "undefined"
  | _ => false

def areLiteral : List (Tree α) → Bool
  | [] => true
  | t :: rest => t.isLiteral && areLiteral rest

def haveLiteralValues : List (Tree α) → Bool
  | [] => true
  | .node _ .property _ [_, value] :: rest => value.isLiteral && haveLiteralValues rest
  | _ :: _ => false

end

def containsMarkup (t : Tree α) : Bool :=
  t.any fun
    | .jsxElement | .jsxFragment => true
    | _ => false

mutual

def refersTo (name : String) : Tree α → Bool
  | .node _ .jsxName _ _ => false
  | .node _ (.ident found) _ kids => found == name || anyRefersTo name kids
  | .node _ _ _ kids => anyRefersTo name kids

def anyRefersTo (name : String) : List (Tree α) → Bool
  | [] => false
  | t :: rest => t.refersTo name || anyRefersTo name rest

end

mutual

def bindingNames : Tree α → List String
  | .node _ (.ident name) _ _ => [name]
  | .node _ .arrayPattern _ elements => allBindingNames elements
  | .node _ .objectPattern _ properties => allBindingNames properties
  | .node _ .patternProperty _ [_, value] => value.bindingNames
  | .node _ .defaulted _ (name :: _) => name.bindingNames
  | .node _ .assignPattern _ (target :: _) => target.bindingNames
  | .node _ .rest _ [target] => target.bindingNames
  | _ => []

def allBindingNames : List (Tree α) → List String
  | [] => []
  | t :: rest => t.bindingNames ++ allBindingNames rest

end

end Sveltify.Script.Tree
