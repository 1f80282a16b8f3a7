import Sveltify.Script.Shape

/-! Finding the component of a module: the default export when it is or names a class or a function,
else the first class with a `render` method or the first function that returns markup. -/

namespace Sveltify

variable {α : Type}

inductive ComponentSource (α : Type) where
  | ofMembers (members : List (Script.Tree α))
  | function (params : List (Script.Tree α)) (body : Script.Tree α)

namespace ComponentSource

def parameterPattern : Script.Tree α → Script.Tree α
  | .node _ .parameter _ [_, pattern] => pattern
  | t => t

def ofFunction? : Script.Tree α → Option (ComponentSource α)
  | .node _ (.function ..) _ [.node _ _ _ params, _, body, _, _] =>
    if body.isAbsent then none else some (.function (params.map parameterPattern) body)
  | _ => none

def ofClass? : Script.Tree α → Option (ComponentSource α)
  | .node _ .classBody _ (_ :: .node _ _ _ members :: _) => some (.ofMembers members)
  | _ => none

def isRender : Script.Tree α → Bool
  | .node _ (.classMethod ..) _ (key :: _) => key.keyName? == some "render"
  | _ => false

def returnsMarkup : Script.Tree α → Bool
  | .node _ .return _ [value] => value.containsMarkup
  | _ => false

def looksLikeComponent : ComponentSource α → Bool
  | .ofMembers members => members.any isRender
  | .function _ (.node _ .block _ statements) => statements.any returnsMarkup
  | .function _ expression => expression.containsMarkup

end ComponentSource

inductive ExportedComponent (α : Type) where
  | named (name : String)
  | inline (source : ComponentSource α)

def exportedComponent? : Script.Tree α → Option (ExportedComponent α)
  | .node _ .paren _ [inner] => exportedComponent? inner
  | .node _ .spread _ [inner] => exportedComponent? inner
  | .node _ (.ident name) _ _ => some (.named name)
  | .node _ (.arrow _) _ (.node _ _ _ params :: body :: _) => some (.inline (.function params body))
  | .node _ .functionExpr _ [_, function] =>
    (ComponentSource.ofFunction? function).map .inline
  | .node _ .classExpr _ [_, body] => (ComponentSource.ofClass? body).map .inline
  | .node _ .call _ [_, .node _ .list _ (argument :: _), _] => exportedComponent? argument
  | _ => none

def declaredComponent? : Script.Tree α → Option (String × ComponentSource α)
  | .node _ .declarator _ [.node _ (.ident name) _ _, value] =>
    match exportedComponent? value with
    | some (.inline source) => some (name, source)
    | _ => none
  | _ => none

def declaredComponents : Script.Tree α → List (String × ComponentSource α)
  | .node _ .classDecl _ [.node _ (.ident name) _ _, body] =>
    ((ComponentSource.ofClass? body).map (name, ·)).toList
  | .node _ .functionDecl _ [.node _ (.ident name) _ _, function] =>
    ((ComponentSource.ofFunction? function).map (name, ·)).toList
  | .node _ (.variableDecl _) _ declarators => declarators.filterMap declaredComponent?
  | _ => []

def itemComponents : Script.Tree α → List (String × ComponentSource α)
  | .node _ .exportDecl _ [declaration] => declaredComponents declaration
  | item => declaredComponents item

structure LocatedComponent (α : Type) where
  name : Option String
  source : ComponentSource α
  items : List Nat

def defaultExport? : Script.Tree α → Option (Option String × ExportedComponent α)
  | .node _ .exportDefaultDecl _ [.node _ .classExpr _ [name, body]] =>
    (ComponentSource.ofClass? body).map fun source => (name.ident?, .inline source)
  | .node _ .exportDefaultDecl _ [.node _ .functionExpr _ [name, function]] =>
    (ComponentSource.ofFunction? function).map fun source => (name.ident?, .inline source)
  | .node _ .exportDefaultExpr _ [value] => (exportedComponent? value).map (none, ·)
  | _ => none

def locateInline? (items : List (Script.Tree α × Nat)) : Option (LocatedComponent α) :=
  items.findSome? fun (item, index) =>
    match defaultExport? item with
    | some (name, .inline source) => some ⟨name, source, [index]⟩
    | _ => none

def exportedName? (items : List (Script.Tree α × Nat)) : Option (String × Nat) :=
  (items.filterMap fun (item, index) =>
    match defaultExport? item with
    | some (_, .named name) => some (name, index)
    | _ => none).getLast?

def locateNamed? (items : List (Script.Tree α × Nat)) : Option (LocatedComponent α) :=
  (exportedName? items).bind fun (name, exportIndex) =>
    items.findSome? fun (item, index) =>
      ((itemComponents item).find? (·.1 == name)).map fun (_, source) =>
        ⟨some name, source, [index, exportIndex]⟩

def locateFirst? (items : List (Script.Tree α × Nat)) : Option (LocatedComponent α) :=
  items.findSome? fun (item, index) =>
    ((itemComponents item).find? (·.2.looksLikeComponent)).map fun (name, source) =>
      ⟨some name, source, [index]⟩

def locateComponent? (items : List (Script.Tree α)) : Option (LocatedComponent α) :=
  let numbered := items.zipIdx
  locateInline? numbered <|> locateNamed? numbered <|> locateFirst? numbered

end Sveltify
