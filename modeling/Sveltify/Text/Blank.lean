/-! Blank characters and trimming. A text is a list of characters; a blank is a character of
Unicode's class `White_Space`. -/

namespace Sveltify

abbrev Text := List Char

namespace Text

/-- A blank is a character of the class `White_Space`, which has 25 members. -/
def isBlank (c : Char) : Bool :=
  let n := c.toNat
  (9 ≤ n && n ≤ 13) || n == 0x20 || n == 0x85 || n == 0xA0 || n == 0x1680 ||
    (0x2000 ≤ n && n ≤ 0x200A) || n == 0x2028 || n == 0x2029 || n == 0x202F || n == 0x205F ||
    n == 0x3000

def isIndent (c : Char) : Bool :=
  c == ' ' || c == '\t'

def dropEndWhile {α : Type} (p : α → Bool) : List α → List α
  | [] => []
  | a :: rest =>
    match dropEndWhile p rest with
    | [] => if p a then [] else [a]
    | kept => a :: kept

def trimStart (s : Text) : Text :=
  s.dropWhile isBlank

def trimEnd (s : Text) : Text :=
  dropEndWhile isBlank s

def trim (s : Text) : Text :=
  trimEnd (trimStart s)

def isBlankText (s : Text) : Bool :=
  s.all isBlank

def startsWith (s pre : Text) : Bool :=
  pre.isPrefixOf s

def endsWith (s post : Text) : Bool :=
  post.isSuffixOf s

def dropPrefix? : (pre s : Text) → Option Text
  | [], s => some s
  | _ :: _, [] => none
  | p :: pre, c :: s => if p == c then dropPrefix? pre s else none

def dropSuffix? (post s : Text) : Option Text :=
  (dropPrefix? post.reverse s.reverse).map List.reverse

def byteSize : Text → Nat
  | [] => 0
  | c :: s => c.utf8Size + byteSize s

@[simp] theorem byteSize_cons (c : Char) (s : Text) : byteSize (c :: s) = c.utf8Size + byteSize s :=
  rfl

@[simp] theorem byteSize_append (s t : Text) : byteSize (s ++ t) = byteSize s + byteSize t := by
  induction s with
  | nil => simp [byteSize]
  | cons c s ih => simp [ih, Nat.add_assoc]

end Text

end Sveltify
