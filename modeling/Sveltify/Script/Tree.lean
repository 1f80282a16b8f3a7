import Sveltify.Source.Span

/-! Syntax trees of scripts. Every node has a kind, the byte range that it was read from and its
parts, listed in the order in which a walk visits them. An optional part that is missing is a node
of kind `absent`, and a repeated part is a node of kind `list`. A node also carries a label, so that
what is computed for a node can be kept beside it and used by the nodes around it. -/

namespace Sveltify.Script

inductive MethodRole where
  | method
  | getter
  | setter
deriving DecidableEq, Repr, Inhabited

inductive TypeDeclaration where
  | interface
  | alias
  | «enum»
  | «namespace»
deriving DecidableEq, Repr, Inhabited

/-- The kind of a node, with its parts in brackets. -/
inductive Kind where
  | absent
  | list
  | hole
  /-- A name that refers to a variable or binds one; a binding may have a type [type]. -/
  | ident (name : String)
  | word (name : String)
  | privateName (name : String)
  | string (value : String)
  | number (mantissa : Nat) (exponent : Int)
  | bigint
  | bool (value : Bool)
  | null
  | regex (pattern flags : String)
  | this
  | super
  | importWord
  | array
  /-- Properties, accessors, methods, spreads, and identifiers that stand for themselves. -/
  | object
  | property
  /-- An identifier with a default, which only a pattern may hold [identifier, default]. -/
  | defaulted
  | getter
  | setter
  | method
  | computed
  | spread
  | function (async generator : Bool)
  | parameter
  | functionExpr
  | arrow (async : Bool)
  | classExpr
  /-- [decorators, members, base, type parameters, type arguments, implemented types] -/
  | classBody
  | unary (operator : String)
  | update (operator : String) (leading : Bool)
  | binary (operator : String)
  | assign (operator : String)
  | conditional
  | call
  | chainCall
  | new
  | sequence
  /-- [object, property], where the property is a word, a private name or computed. -/
  | member
  | superMember
  | chain
  | template (raw : List String)
  | taggedTemplate
  | yield
  | await
  | paren
  | metaProperty
  | cast
  | constCast
  | nonNull
  | instantiation
  | arrayPattern
  | objectPattern
  | patternProperty
  | assignPattern
  | rest
  | jsxElement
  | jsxOpening (selfClosing : Bool)
  | jsxClosing
  | jsxName
  | jsxMember
  | jsxNamespaced
  | jsxAttribute
  | jsxFragment
  | jsxFragmentTag
  | jsxText (blank : Bool)
  | jsxExpression
  | jsxSpreadChild
  | jsxEmpty
  | block
  | empty
  | debugger
  | with
  | return
  | labeled
  | break
  | continue
  | if
  | switch
  | switchCase
  | throw
  | try
  | catchClause
  | while
  | doWhile
  | for
  | forIn
  | forOf
  | variableDecl (word : String)
  | usingDecl
  | declarator
  | functionDecl
  | classDecl
  | expression
  | constructor
  | classMethod (role : MethodRole) (static : Bool)
  | classField (static : Bool)
  | accessor
  | staticBlock
  | typeMember
  | module
  | import
  | importNamed
  | importDefault
  | importNamespace
  | exportNamed
  | exportSpecifier
  | exportNamespace
  | exportAll
  | exportDecl
  | exportDefaultDecl
  | exportDefaultExpr
  | typeExport
  | decorator
  | typeDeclaration (sort : TypeDeclaration)
  | type
deriving Inhabited

inductive Tree (α : Type) where
  | node (label : α) (kind : Kind) (span : Span) (kids : List (Tree α))

abbrev Node := Tree Unit

namespace Tree

variable {α β : Type}

@[match_pattern] def of (kind : Kind) (span : Span) (kids : List Node) : Node :=
  .node () kind span kids

def absentAt (offset : Nat) : Node :=
  .of .absent ⟨offset, offset⟩ []

instance : Inhabited Node :=
  ⟨absentAt 0⟩

def label : Tree α → α
  | .node label _ _ _ => label

def kind : Tree α → Kind
  | .node _ kind _ _ => kind

def span : Tree α → Span
  | .node _ _ span _ => span

def kids : Tree α → List (Tree α)
  | .node _ _ _ kids => kids

def isAbsent : Tree α → Bool
  | .node _ .absent _ _ => true
  | _ => false

def present? (t : Tree α) : Option (Tree α) :=
  if t.isAbsent then none else some t

def kid (n : Node) (i : Nat) : Node :=
  n.kids.getD i (absentAt n.span.stop)

def ident? : Tree α → Option String
  | .node _ (.ident name) _ _ => some name
  | _ => none

def unparen : Tree α → Tree α
  | .node _ .paren _ [inner] => inner.unparen
  | t => t

mutual

def any (p : Kind → Bool) : Tree α → Bool
  | .node _ kind _ kids => p kind || anyOf p kids

def anyOf (p : Kind → Bool) : List (Tree α) → Bool
  | [] => false
  | t :: rest => t.any p || anyOf p rest

end

mutual

/-- Labels every node by what `f` makes of the node and of its labelled parts. -/
def relabel (f : Tree α → List (Tree β) → β) : Tree α → Tree β
  | .node label kind span kids =>
    let done := relabelAll f kids
    .node (f (.node label kind span kids) done) kind span done

def relabelAll (f : Tree α → List (Tree β) → β) : List (Tree α) → List (Tree β)
  | [] => []
  | t :: rest => t.relabel f :: relabelAll f rest

end

end Tree

end Sveltify.Script
