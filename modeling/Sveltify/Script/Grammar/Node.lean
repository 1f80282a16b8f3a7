import Sveltify.Script.Place
import Sveltify.Script.Tree

/-! Tokens and nodes as the grammar reads them. They stand between places of the script, and what is
called something there has the name of a word; only the names of elements and attributes may hold
dashes. `Node.tree` is the syntax tree that a node stands for. -/

namespace Sveltify.Script

def Kind.isNamed : Kind → Bool
  | .ident name | .word name => Text.isName name.toList
  | _ => true

namespace Grammar

variable [Subject]

structure Extent where
  start : Place
  stop : Place

def Extent.span (extent : Extent) : Span :=
  ⟨extent.start.offset, extent.stop.offset⟩

structure Token where
  lexeme : Lexeme
  start : Place
  stop : Place
  newline : Bool
  faulty : Bool
  named : lexeme.isNamed

namespace Token

def readAfter (newline : Bool) (place : Place) : Token :=
  let trivia := Trivia.skip place.toCursor newline
  let token := Script.Token.ofTrivia trivia
  { lexeme := token.lexeme
    start := ⟨trivia.stop, place.inScript.skipFrom⟩
    stop := ⟨token.stop, place.inScript.skipFrom.readLexeme⟩
    newline := token.newline
    faulty := token.faulty
    named := Script.Token.isNamed_readLexeme trivia.stop }

def read (place : Place) : Token :=
  readAfter false place

def readFirst (place : Place) : Token :=
  readAfter true place

def span (t : Token) : Extent :=
  ⟨t.start, t.stop⟩

end Token

structure Word where
  name : String
  span : Extent
  named : Text.isName name.toList

inductive Tag where
  | ident (word : Word)
  | word (name : String) (span : Extent)
  | member (object part : Tag) (span : Extent)
  | namespaced (space part : Tag) (span : Extent)

namespace Tag

def tree : Tag → Script.Node
  | .ident first => .of (.ident first.name) first.span.span []
  | .word name span => .of (.word name) span.span []
  | .member object part span => .of .jsxMember span.span [object.tree, part.tree]
  | .namespaced space part span => .of .jsxNamespaced span.span [space.tree, part.tree]

def text : Tag → String
  | .ident first => first.name
  | .word name _ => name
  | .member object part _ => object.text ++ "." ++ part.text
  | .namespaced space part _ => space.text ++ ":" ++ part.text

end Tag

/-- A node between two places. The names in tags are kept apart from the other nodes. -/
inductive Node where
  | of (kind : Kind) (span : Extent) (kids : List Node)
      (named : kind.isNamed := by exact Eq.refl true)
  | tagged (tag : Tag) (span : Extent)
  | attr (tag : Tag) (value : Node) (span : Extent)

def Word.ident (word : Word) : Node :=
  .of (.ident word.name) word.span [] word.named

namespace Node

def absentAt (place : Place) : Node :=
  .of .absent ⟨place, place⟩ []

def kind : Node → Kind
  | .of kind _ _ _ => kind
  | .tagged _ _ => .jsxName
  | .attr _ _ _ => .jsxAttribute

theorem isNamed_kind (n : Node) : n.kind.isNamed := by
  cases n with
  | of _ _ _ named => exact named
  | tagged | attr => rfl

def span : Node → Extent
  | .of _ span _ _ | .tagged _ span | .attr _ _ span => span

def kids : Node → List Node
  | .of _ _ kids _ => kids
  | .tagged _ _ => []
  | .attr _ value _ => [value]

def isAbsent : Node → Bool
  | .of .absent _ _ => true
  | _ => false

def kid (n : Node) (i : Nat) : Node :=
  n.kids.getD i (absentAt n.span.stop)

def ident? : Node → Option String
  | .of (.ident name) _ _ _ => some name
  | _ => none

def unparen : Node → Node
  | .of .paren _ [inner] => inner.unparen
  | n => n

mutual

def tree : Node → Script.Node
  | .of kind span kids _ => .of kind span.span (trees kids)
  | .tagged tag span => .of .jsxName span.span [tag.tree]
  | .attr tag value span => .of .jsxAttribute span.span [tag.tree, value.tree]

def trees : List Node → List Script.Node
  | [] => []
  | n :: rest => n.tree :: trees rest

end

end Node

end Grammar

end Sveltify.Script
