import Sveltify.Text.Letter

/-! Characters of identifiers: Unicode's classes `ID_Start` and `ID_Continue`, with the dollar sign
and the underscore that scripts add to them. -/

namespace Sveltify.Text

def otherIdStart : List Stretch := stretchTable 1 ["jhLCdgJBVBfvWC"]

def otherIdContinue : List Stretch := stretchTable 1 ["hBBbbRBgaJJclCBciZCgkRBdaeJB"]

/-- `n` is the code of a character of the class `ID_Start`. The vertical tilde is a letter that
identifiers leave out. -/
def inIdStart (n : Nat) : Bool :=
  (inCategories (.letterNumber :: Category.letters) n && n != 0x2E2F) || inStretches otherIdStart n

def inIdContinue (n : Nat) : Bool :=
  inIdStart n || inStretches otherIdContinue n ||
    inCategories [.nonspacingMark, .spacingMark, .decimalNumber, .connectorPunctuation] n

def isIdStart (c : Char) : Bool :=
  let n := c.toNat
  if n < 128 then c.isAlpha || c == '_' || c == '$' else inIdStart n

def isIdContinue (c : Char) : Bool :=
  let n := c.toNat
  if n < 128 then c.isAlphanum || c == '_' || c == '$' else inIdContinue n

def isName : Text → Bool
  | [] => false
  | c :: s => isIdStart c && s.all isIdContinue

theorem isName_append {s : Text} {c : Char} (h : isName s) (hc : isIdContinue c) :
    isName (s ++ [c]) := by
  cases s with
  | nil => simp [isName] at h
  | cons first rest => simp_all [isName]

end Sveltify.Text
