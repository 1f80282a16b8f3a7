import Sveltify.Pattern.CharSet
import Sveltify.Text.Identifier

/-! Sets of characters that have a name: the properties of Unicode, and the classes of ASCII. -/

namespace Sveltify.Pattern.CharClass

open Text (Category Property WritingSystem)

def alphabetic : CharSet :=
  (CharSet.ofCategories (.letterNumber :: Category.letters)).union
    (.ofStretches Text.otherAlphabetic)

def uppercase : CharSet :=
  (CharSet.ofCategories [.uppercaseLetter]).union (.ofStretches Text.otherUppercase)

def lowercase : CharSet :=
  (CharSet.ofCategories [.lowercaseLetter]).union (.ofStretches Text.otherLowercase)

def digit : CharSet :=
  .ofCategories [.decimalNumber]

def space : CharSet :=
  .ofRanges [(0x9, 0xD), (0x20, 0x20), (0x85, 0x85), (0xA0, 0xA0), (0x1680, 0x1680),
    (0x2000, 0x200A), (0x2028, 0x2029), (0x202F, 0x202F), (0x205F, 0x205F), (0x3000, 0x3000)]

def word : CharSet :=
  (alphabetic.union
    (.ofCategories (.decimalNumber :: .connectorPunctuation :: Category.marks))).union
    (.ofRanges [(0x200C, 0x200D)])

def idStart : CharSet :=
  ((CharSet.ofCategories (.letterNumber :: Category.letters)).diff (.ofCodes [0x2E2F])).union
    (.ofStretches Text.otherIdStart)

def idContinue : CharSet :=
  (idStart.union (.ofCategories
    [.nonspacingMark, .spacingMark, .decimalNumber, .connectorPunctuation])).union
    (.ofStretches Text.otherIdContinue)

def graphemeExtend : CharSet :=
  (CharSet.ofCategories [.nonspacingMark, .enclosingMark]).union
    (.ofStretches Property.otherGraphemeExtend)

def derived? (name : String) : Option CharSet :=
  match name with
  | "alphabetic" | "alpha" => some alphabetic
  | "uppercase" | "upper" => some uppercase
  | "lowercase" | "lower" => some lowercase
  | "cased" =>
    some ((uppercase.union lowercase).union (.ofCategories [.titlecaseLetter]))
  | "caseignorable" | "ci" =>
    some ((CharSet.ofCategories
      [.nonspacingMark, .enclosingMark, .format, .modifierLetter, .modifierSymbol]).union
      (.ofStretches Text.otherCaseIgnorable))
  | "idstart" | "ids" => some idStart
  | "idcontinue" | "idc" => some idContinue
  | "xidstart" | "xids" => some (idStart.diff (.ofStretches Property.unstableIdStart))
  | "xidcontinue" | "xidc" => some (idContinue.diff (.ofStretches Property.unstableIdContinue))
  | "math" =>
    some ((CharSet.ofCategories [.mathSymbol]).union (.ofStretches Property.otherMath))
  | "graphemeextend" | "grext" => some graphemeExtend
  | "graphemebase" | "grbase" =>
    some ((CharSet.ofCategories (Category.letters ++ Category.marks ++ Category.numerals ++
      Category.punctuation ++ Category.symbols ++ [.spaceSeparator])).diff graphemeExtend)
  | _ => none

def unassigned : CharSet :=
  (CharSet.ofCategories Category.all).not

def category? (name : String) : Option CharSet :=
  match name with
  | "any" => some .all
  | "assigned" => some (.ofCategories Category.all)
  | "ascii" => some (.ofRanges [(0, 127)])
  | "unassigned" | "cn" => some unassigned
  | "other" | "c" => some ((CharSet.ofCategories Category.invisibles).union unassigned)
  | _ => (categories? name).map .ofCategories
where
  categories? (name : String) : Option (List Category) :=
    match name with
    | "letter" | "l" => some Category.letters
    | "casedletter" | "lc" => some [.uppercaseLetter, .lowercaseLetter, .titlecaseLetter]
    | "uppercaseletter" | "lu" => some [.uppercaseLetter]
    | "lowercaseletter" | "ll" => some [.lowercaseLetter]
    | "titlecaseletter" | "lt" => some [.titlecaseLetter]
    | "modifierletter" | "lm" => some [.modifierLetter]
    | "otherletter" | "lo" => some [.otherLetter]
    | "mark" | "combiningmark" | "m" => some Category.marks
    | "nonspacingmark" | "mn" => some [.nonspacingMark]
    | "spacingmark" | "mc" => some [.spacingMark]
    | "enclosingmark" | "me" => some [.enclosingMark]
    | "number" | "n" => some Category.numerals
    | "decimalnumber" | "digit" | "nd" => some [.decimalNumber]
    | "letternumber" | "nl" => some [.letterNumber]
    | "othernumber" | "no" => some [.otherNumber]
    | "punctuation" | "punct" | "p" => some Category.punctuation
    | "connectorpunctuation" | "pc" => some [.connectorPunctuation]
    | "dashpunctuation" | "pd" => some [.dashPunctuation]
    | "openpunctuation" | "ps" => some [.openPunctuation]
    | "closepunctuation" | "pe" => some [.closePunctuation]
    | "initialpunctuation" | "pi" => some [.initialPunctuation]
    | "finalpunctuation" | "pf" => some [.finalPunctuation]
    | "otherpunctuation" | "po" => some [.otherPunctuation]
    | "symbol" | "s" => some Category.symbols
    | "mathsymbol" | "sm" => some [.mathSymbol]
    | "currencysymbol" | "sc" => some [.currencySymbol]
    | "modifiersymbol" | "sk" => some [.modifierSymbol]
    | "othersymbol" | "so" => some [.otherSymbol]
    | "separator" | "z" => some Category.separators
    | "spaceseparator" | "zs" => some [.spaceSeparator]
    | "lineseparator" | "zl" => some [.lineSeparator]
    | "paragraphseparator" | "zp" => some [.paragraphSeparator]
    | "control" | "cntrl" | "cc" => some [.control]
    | "format" | "cf" => some [.format]
    | "privateuse" | "co" => some [.privateUse]
    | _ => none

def writingSystem? (name : String) : Option CharSet :=
  (WritingSystem.find? name).map fun w => .ofRanges w.own

/-- The characters that a writing system uses. What writing systems share counts for them, and for
nothing that is common. -/
def usedBy? (name : String) : Option CharSet :=
  (WritingSystem.find? name).map fun w =>
    let own := CharSet.ofRanges w.own
    let shared := CharSet.ofRanges
    if w.isCommon then own.diff (shared WritingSystem.sharedRanges) else own.union (shared w.shared)

/-- A name as it is looked up: in small letters, without blanks, dashes and underscores, without
what is not ASCII and without a first `is`. -/
def normalize (name : Text) : String :=
  let body := match name with
    | a :: b :: rest => if a.toLower == 'i' && b.toLower == 's' then rest else name
    | _ => name
  let plain := (body.filter fun c => c.toNat < 128 && c != ' ' && c != '_' && c != '-').map
    Char.toLower
  String.ofList (if plain == ['c'] && body.length < name.length then ['i', 's', 'c'] else plain)

def named? (name : Text) : Option CharSet :=
  let name := normalize name
  (derived? name).or <| ((Property.find? name).map fun p => .ofStretches p.stretches).or <|
    (category? name).or (writingSystem? name)

def withValue? (property value : Text) : Option CharSet :=
  match normalize property with
  | "generalcategory" | "gc" => category? (normalize value)
  | "script" | "sc" => writingSystem? (normalize value)
  | "scriptextensions" | "scx" => usedBy? (normalize value)
  | _ => none

def asciiLetter : CharSet :=
  .ofRanges [(65, 90), (97, 122)]

def asciiSpace : CharSet :=
  .ofRanges [(9, 13), (32, 32)]

def asciiWord : CharSet :=
  .ofRanges [(48, 57), (65, 90), (95, 95), (97, 122)]

def ascii? (name : String) : Option CharSet :=
  match name with
  | "alnum" => some (.ofRanges [(48, 57), (65, 90), (97, 122)])
  | "alpha" => some asciiLetter
  | "ascii" => some (.ofRanges [(0, 127)])
  | "blank" => some (.ofRanges [(9, 9), (32, 32)])
  | "cntrl" => some (.ofRanges [(0, 31), (127, 127)])
  | "digit" => some (.ofRanges [(48, 57)])
  | "graph" => some (.ofRanges [(33, 126)])
  | "lower" => some (.ofRanges [(97, 122)])
  | "print" => some (.ofRanges [(32, 126)])
  | "punct" => some (.ofRanges [(33, 47), (58, 64), (91, 96), (123, 126)])
  | "space" => some asciiSpace
  | "upper" => some (.ofRanges [(65, 90)])
  | "word" => some asciiWord
  | "xdigit" => some (.ofRanges [(48, 57), (65, 70), (97, 102)])
  | _ => none

def isWord (c : Char) : Bool :=
  if c.toNat < 128 then asciiWord.contains c
  else Text.isLetter c || c.toNat == 0x200C || c.toNat == 0x200D ||
    Text.inCategories (.decimalNumber :: .connectorPunctuation :: Category.marks) c.toNat

end Sveltify.Pattern.CharClass
