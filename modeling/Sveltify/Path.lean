import Sveltify.Text.Lines

/-! File paths. A path keeps the text in which it is written; its components are what the text
means. Repeated slashes and inner dots mean nothing. -/

namespace Sveltify

structure Path where
  text : Text
deriving DecidableEq, Inhabited

namespace Path

inductive Component where
  | root
  | current
  | parent
  | normal (name : Text)
deriving DecidableEq, Inhabited

namespace Component

def text : Component → Text
  | .root => ['/']
  | .current => ['.']
  | .parent => ['.', '.']
  | .normal name => name

def ofPiece? (piece : Text) : Option Component :=
  if piece.isEmpty || piece == ['.'] then none
  else if piece == ['.', '.'] then some .parent
  else some (.normal piece)

end Component

def ofString (s : String) : Path :=
  ⟨s.toList⟩

def toString (p : Path) : String :=
  String.ofList p.text

def empty : Path :=
  ⟨[]⟩

def isAbsolute (p : Path) : Bool :=
  p.text.head? == some '/'

def components (p : Path) : List Component :=
  let pieces := Text.splitOn '/' p.text
  let inner := pieces.filterMap Component.ofPiece?
  if p.isAbsolute then .root :: inner
  else if pieces.head? == some ['.'] then .current :: inner
  else inner

def names (p : Path) : List Text :=
  p.components.filterMap fun
    | .normal name => some name
    | _ => none

def join (p part : Path) : Path :=
  if part.isAbsolute || p.text.isEmpty then part
  else if p.text.getLast? == some '/' then ⟨p.text ++ part.text⟩
  else ⟨p.text ++ '/' :: part.text⟩

def compareText : Text → Text → Ordering
  | [], [] => .eq
  | [], _ => .lt
  | _, [] => .gt
  | c :: rest, d :: others => (compare c.toNat d.toNat).then (compareText rest others)

def Component.rank : Component → Nat
  | .root => 0
  | .current => 1
  | .parent => 2
  | .normal _ => 3

def Component.order : Component → Component → Ordering
  | .normal name, .normal other => compareText name other
  | c, d => compare c.rank d.rank

def orderComponents : List Component → List Component → Ordering
  | [], [] => .eq
  | [], _ => .lt
  | _, [] => .gt
  | c :: rest, d :: others => (c.order d).then (orderComponents rest others)

def order (p q : Path) : Ordering :=
  orderComponents p.components q.components

def same (p q : Path) : Bool :=
  p.components == q.components

def ofComponents (components : List Component) : Path :=
  components.foldl (fun p c => p.join ⟨c.text⟩) empty

def fileName? (p : Path) : Option Text :=
  match p.components.getLast? with
  | some (.normal name) => some name
  | _ => none

def splitExtension (name : Text) : Text × Option Text :=
  let after := (name.reverse.takeWhile (· != '.')).reverse
  let before := (name.take (name.length - after.length)).dropLast
  if after.length == name.length || before.isEmpty then (name, none) else (before, some after)

def fileStem? (p : Path) : Option Text :=
  p.fileName?.map fun name => (splitExtension name).1

def extension? (p : Path) : Option Text :=
  p.fileName?.bind fun name => (splitExtension name).2

def trimPieces (pieces : List Text) : List Text :=
  Text.dropEndWhile (fun piece => (Component.ofPiece? piece).isNone) pieces

def parent? (p : Path) : Option Path :=
  let pieces := Text.splitOn '/' p.text
  let start := if p.isAbsolute then [] else pieces.head?.getD []
  if p.isAbsolute || start == ['.'] then
    match trimPieces pieces.tail with
    | [] => if p.isAbsolute then none else some empty
    | kept =>
      let rest := trimPieces kept.dropLast
      if p.isAbsolute then some ⟨'/' :: Text.joinWith ['/'] rest⟩
      else some ⟨Text.joinWith ['/'] (['.'] :: rest)⟩
  else
    match trimPieces pieces with
    | [] => none
    | kept => some ⟨Text.joinWith ['/'] (trimPieces kept.dropLast)⟩

/-- One step of resolving dots, on the components resolved so far with the last one first. A parent
takes back a name, and above the root there is only the root. -/
def normalizeStep (done : List Component) : Component → List Component
  | .current => done
  | .parent =>
    match done with
    | .normal _ :: rest => rest
    | .root :: _ => done
    | _ => .parent :: done
  | c => c :: done

def normalize (p : Path) : Path :=
  let q := ofComponents (p.components.foldl normalizeStep []).reverse
  if q.text.isEmpty then ⟨['.']⟩ else q

def resolveStep (done : List Component) : Component → List Component
  | .current => done
  | .parent =>
    match done with
    | .normal _ :: rest => rest
    | _ => .parent :: done
  | c => c :: done

def resolved (p : Path) : List Component :=
  (p.components.foldl resolveStep []).reverse

def commonLength : List Component → List Component → Nat
  | a :: as, b :: bs => if a == b then commonLength as bs + 1 else 0
  | _, _ => 0

def relative (source target : Path) : Path :=
  let a := source.resolved
  let b := target.resolved
  let common := commonLength a b
  ofComponents (List.replicate (a.length - common) .parent ++ b.drop common)

end Path

def componentName (path : Path) : String :=
  let stem := path.fileStem?.getD []
  let name :=
    if stem == "index".toList then (path.parent?.bind Path.fileName?).getD stem else stem
  if name.isEmpty then "Component" else String.ofList name

end Sveltify
