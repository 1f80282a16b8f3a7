import Sveltify.Text.Layout

/-! Markup of the generated component and how it is written. Text between tags keeps the layout of
the source; blocks are laid out against the column of the expression whose place they take. -/

namespace Sveltify.Markup

inductive AttributeKind where
  | classNames
  | event (name : String)
  | ref
  | plain
  | spread
deriving DecidableEq, Repr, Inhabited

inductive AttributeValue where
  | none
  | literal (text : Text)
  | expression (code : Text)
  | interpolated (text : Text)
deriving DecidableEq, Repr, Inhabited

structure Attribute where
  kind : AttributeKind
  name : String
  value : AttributeValue
  leading : Text
deriving DecidableEq, Repr, Inhabited

structure Body (ν : Type) where
  nodes : List ν := []
  indent : Nat := 0

structure Branch (ν : Type) where
  test : Text
  body : Body ν

inductive Node where
  | element (tag : String) (attributes : List Attribute) (children : List Node)
      (selfClosing : Bool) (beforeClose : Text)
  | text (text : Text)
  | expression (code : Text)
  | comment (text : Text)
  | conditional (branches : List (Branch Node)) (otherwise : Option (Body Node)) (base : Nat)
  | iteration (collection item : Text) (index : Option String) (body : Body Node) (base : Nat)
  | slot
  | review (marker : Nat)

def braced (text : Text) : Text :=
  '\x7b' :: text ++ ['\x7d']

def Attribute.write (a : Attribute) : Text :=
  a.leading ++
    match a.kind, a.value with
    | .spread, .expression code => braced ("...".toList ++ code)
    | .spread, _ => []
    | _, .none => a.name.toList
    | _, .literal text => a.name.toList ++ '=' :: text
    | _, .expression code => a.name.toList ++ '=' :: braced code
    | _, .interpolated text => a.name.toList ++ "=\"".toList ++ text ++ ['"']

def spaces (n : Nat) : Text :=
  List.replicate n ' '

def layoutBody (base indent : Nat) (text : Text) : Text :=
  let lead := spaces (base + 2)
  '\n' :: lead ++ Text.reindent text indent lead ++ '\n' :: spaces base

mutual

def Node.write : Node → Text
  | .element tag attributes children selfClosing beforeClose =>
    let opening := '<' :: tag.toList ++ (attributes.map Attribute.write).flatten ++ beforeClose
    if selfClosing then opening ++ "/>".toList
    else opening ++ '>' :: writeAll children ++ "</".toList ++ tag.toList ++ ['>']
  | .text text => text
  | .expression code => braced code
  | .comment text => "<!-- ".toList ++ text ++ " -->".toList
  | .conditional branches otherwise base =>
    writeBranches base "#if ".toList branches ++ writeOtherwise base otherwise ++
      braced "/if".toList
  | .iteration collection item index body base =>
    let position := match index with
      | some name => ", ".toList ++ name.toList
      | none => []
    braced ("#each ".toList ++ collection ++ " as ".toList ++ item ++ position) ++
      writeBody base body ++ braced "/each".toList
  | .slot => "<slot />".toList
  | .review marker => "<!-- MANUAL REVIEW #".toList ++ (toString marker).toList ++ " -->".toList

def writeAll : List Node → Text
  | [] => []
  | node :: rest => node.write ++ writeAll rest

def writeBody (base : Nat) : Body Node → Text
  | ⟨nodes, indent⟩ => layoutBody base indent (writeAll nodes)

def writeBranch (base : Nat) (words : Text) : Branch Node → Text
  | ⟨test, body⟩ => braced (words ++ test) ++ writeBody base body

def writeBranches (base : Nat) (words : Text) : List (Branch Node) → Text
  | [] => []
  | branch :: rest =>
    writeBranch base words branch ++ writeBranches base ":else if ".toList rest

def writeOtherwise (base : Nat) : Option (Body Node) → Text
  | none => []
  | some body => braced ":else".toList ++ writeBody base body

end

end Sveltify.Markup
