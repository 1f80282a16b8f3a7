import Sveltify.Text.Letter

/-! Lower and upper case after Unicode's full case mappings. A capital sigma at the end of a word is
lowered to its final form, as the mapping's one condition on context asks. -/

namespace Sveltify.Text

/-- Every `step`-th character of a closed range, each with its partner `shift` places further. -/
structure CaseRun where
  lo : Nat
  hi : Nat
  step : Nat
  shift : Int

/-- Runs after the end of an earlier one. The numbers tell by turns how many characters lie before
a run, how many it has, and how far it shifts them. -/
def caseRunsFrom (step : Nat) (sign : Int) (after : Nat) : List Nat → List CaseRun
  | gap :: count :: shift :: rest =>
    let last := after + gap + (count - 1) * step
    ⟨after + gap, last, step, sign * shift⟩ :: caseRunsFrom step sign (last + 1) rest
  | _ => []

def caseTable (step : Nat) (sign : Int) (numbers : List Nat) : List CaseRun :=
  caseRunsFrom step sign 0 numbers

def lowerRuns : List CaseRun := caseTable 1 1 [
  65,26,32,101,23,32,1,7,32,162,1,210,4,1,206,0,1,1,1,2,205,0,1,1,2,1,79,0,1,202,0,1,203,0,1,1,1,1,
  205,0,1,207,1,1,211,0,1,209,0,1,1,3,1,211,0,1,213,1,1,214,6,1,218,0,1,1,1,1,218,2,1,1,1,1,218,0,1,
  1,1,2,217,4,1,219,0,1,1,3,1,1,7,1,2,0,1,1,1,1,2,0,1,1,1,1,2,38,1,2,72,1,10795,0,1,1,2,1,10792,2,1,
  1,2,1,69,0,1,71,304,1,1,8,1,116,6,1,38,1,3,37,1,1,64,1,2,63,1,17,32,1,9,32,35,1,8,39,1,1,2,1,1,5,
  16,80,0,32,32,144,1,15,112,38,48,2889,38,7264,1,1,7264,5,1,7264,722,80,38864,0,6,8,2195,1,1,1192,
  1,28,45,16,16,19,1,1,818,26,26,1840,48,48,48,1,1,17,1,1,2,1,1,124,1,1,31384,1,1,39,1,928,24,1,1,3,
  1,1,36,1,1,22315,26,32,1221,40,40,136,36,40,156,11,39,1,15,39,1,7,39,1,2,39,1770,51,64,157,22,32,
  2874,32,32,21888,32,32,31392,34,34] ++
  caseTable 2 1 [
  256,24,1,3,3,1,2,8,1,2,23,1,2,3,1,4,2,1,27,3,1,14,2,1,21,9,1,2,9,1,3,2,1,3,20,1,3,9,1,19,5,1,289,
  2,1,101,12,1,113,17,1,9,27,1,2,7,1,2,48,1,6353,75,1,11,48,1,3432,3,1,20,50,1,8,2,1,31058,23,1,19,
  14,1,135,7,1,3,31,1,10,2,1,2,5,1,9,2,1,3,10,1,11,8,1,4,2,1,12,3,1] ++
  caseTable 1 (-1) [
  376,1,121,125,1,97,0,1,56,40,1,130,28,1,163,5,1,195,432,1,60,4,1,7,3,3,130,6288,43,3008,2,3,3008,
  478,1,7615,105,8,8,8,6,8,10,8,8,8,8,8,8,6,8,26,8,8,24,8,8,8,8,8,8,8,8,8,2,8,0,2,74,0,1,9,11,4,86,
  0,1,9,11,2,8,0,2,100,12,2,8,0,2,112,0,1,7,11,2,128,0,2,126,0,1,9,297,1,7517,3,1,8383,0,1,8262,
  2870,1,10743,0,1,3814,0,1,10727,8,1,10780,0,1,10749,0,1,10783,0,1,10782,13,2,10815,31485,1,35332,
  15,1,42280,28,1,42308,0,1,42319,0,1,42315,0,1,42305,0,1,42308,1,1,42258,0,1,42282,0,1,42261,17,1,
  48,0,1,42307,0,1,35384,4,1,42343,16,1,42561] ++
  caseTable 2 (-1) [
  8025,4,8]

def otherCapitals : List (Nat × Nat) := [
  (181, 924), (305, 73), (383, 83), (453, 452), (456, 455), (459, 458), (498, 497), (837, 921),
  (962, 931), (976, 914), (977, 920), (981, 934), (982, 928), (1008, 922), (1009, 929),
  (1013, 917), (7296, 1042), (7297, 1044), (7298, 1054), (7299, 1057), (7300, 1058), (7301, 1058),
  (7302, 1066), (7303, 1122), (7304, 42570), (7835, 7776), (8126, 921)]

def CaseRun.inverse (r : CaseRun) : CaseRun :=
  ⟨((r.lo : Int) + r.shift).toNat, ((r.hi : Int) + r.shift).toNat, r.step, -r.shift⟩

def upperRuns : List CaseRun :=
  lowerRuns.map (·.inverse) ++ otherCapitals.map fun (n, capital) => ⟨n, n, 1, (capital : Int) - n⟩

def lowerLong : List (Nat × List Nat) := [
  (0x130, [0x69, 0x307])]

def upperLong : List (Nat × List Nat) := [
  (0xDF, [0x53, 0x53]), (0x149, [0x2BC, 0x4E]), (0x1F0, [0x4A, 0x30C]),
  (0x390, [0x399, 0x308, 0x301]), (0x3B0, [0x3A5, 0x308, 0x301]), (0x587, [0x535, 0x552]),
  (0x1E96, [0x48, 0x331]), (0x1E97, [0x54, 0x308]), (0x1E98, [0x57, 0x30A]),
  (0x1E99, [0x59, 0x30A]), (0x1E9A, [0x41, 0x2BE]), (0x1F50, [0x3A5, 0x313]),
  (0x1F52, [0x3A5, 0x313, 0x300]), (0x1F54, [0x3A5, 0x313, 0x301]), (0x1F56, [0x3A5, 0x313, 0x342]),
  (0x1FB2, [0x1FBA, 0x399]), (0x1FB3, [0x391, 0x399]), (0x1FB4, [0x386, 0x399]),
  (0x1FB6, [0x391, 0x342]), (0x1FB7, [0x391, 0x342, 0x399]), (0x1FBC, [0x391, 0x399]),
  (0x1FC2, [0x1FCA, 0x399]), (0x1FC3, [0x397, 0x399]), (0x1FC4, [0x389, 0x399]),
  (0x1FC6, [0x397, 0x342]), (0x1FC7, [0x397, 0x342, 0x399]), (0x1FCC, [0x397, 0x399]),
  (0x1FD2, [0x399, 0x308, 0x300]), (0x1FD3, [0x399, 0x308, 0x301]), (0x1FD6, [0x399, 0x342]),
  (0x1FD7, [0x399, 0x308, 0x342]), (0x1FE2, [0x3A5, 0x308, 0x300]), (0x1FE3, [0x3A5, 0x308, 0x301]),
  (0x1FE4, [0x3A1, 0x313]), (0x1FE6, [0x3A5, 0x342]), (0x1FE7, [0x3A5, 0x308, 0x342]),
  (0x1FF2, [0x1FFA, 0x399]), (0x1FF3, [0x3A9, 0x399]), (0x1FF4, [0x38F, 0x399]),
  (0x1FF6, [0x3A9, 0x342]), (0x1FF7, [0x3A9, 0x342, 0x399]), (0x1FFC, [0x3A9, 0x399]),
  (0xFB00, [0x46, 0x46]), (0xFB01, [0x46, 0x49]), (0xFB02, [0x46, 0x4C]),
  (0xFB03, [0x46, 0x46, 0x49]), (0xFB04, [0x46, 0x46, 0x4C]), (0xFB05, [0x53, 0x54]),
  (0xFB06, [0x53, 0x54]), (0xFB13, [0x544, 0x546]), (0xFB14, [0x544, 0x535]),
  (0xFB15, [0x544, 0x53B]), (0xFB16, [0x54E, 0x546]), (0xFB17, [0x544, 0x53D])] ++
  -- Greek vowels with an iota below them: each of the three has two rows of eight
  [(0x1F80, 0x1F08), (0x1F90, 0x1F28), (0x1FA0, 0x1F68)].flatMap fun (lo, capital) =>
    (List.range 16).map fun i => (lo + i, [capital + i % 8, 0x399])

def otherUppercase : List Stretch := stretchTable 1 ["mqQQbgGbAgsiYbAGbAGbA"]

def otherLowercase : List Stretch := stretchTable 1 [
  "gOBPBtHJHCbEFdSBcABfcZBepZcLNBbIbLbaNBNBQNiDQbgQbAcwOCbugKCiCBeZDDCbhIEJBbiwSBCDBbQBJddzHcK"]

def otherCaseIgnorable : List Stretch := stretchTable 1 [
  "bNBGBLBeUBbbRBsDBfSBjxJCKBCBdgbBBcKBCBgVBGBLB"]

def isCasedCode (n : Nat) : Bool :=
  inCategories [.uppercaseLetter, .lowercaseLetter, .titlecaseLetter] n ||
    inStretches otherUppercase n || inStretches otherLowercase n

def isCaseIgnorableCode (n : Nat) : Bool :=
  inCategories [.nonspacingMark, .enclosingMark, .format, .modifierLetter, .modifierSymbol] n ||
    inStretches otherCaseIgnorable n

def CaseRun.find? (runs : List CaseRun) (n : Nat) : Option Nat :=
  (runs.find? fun r => r.lo ≤ n && n ≤ r.hi && (n - r.lo) % r.step == 0).map
    fun r => ((n : Int) + r.shift).toNat

def caseForm (long : List (Nat × List Nat)) (runs : List CaseRun) (c : Char) : Text :=
  match long.lookup c.toNat with
  | some form => form.map Char.ofNat
  | none =>
    match CaseRun.find? runs c.toNat with
    | some n => [Char.ofNat n]
    | none => [c]

def lowerChar (c : Char) : Text :=
  if c.toNat < 128 then [c.toLower] else caseForm lowerLong lowerRuns c

def upperChar (c : Char) : Text :=
  if c.toNat < 128 then [c.toUpper] else caseForm upperLong upperRuns c

def casedAhead (s : Text) : Bool :=
  match s.dropWhile (isCaseIgnorableCode ·.toNat) with
  | [] => false
  | c :: _ => isCasedCode c.toNat

def lowerAfter (before : Text) : Text → Text
  | [] => []
  | c :: s =>
    let form :=
      if c.toNat == 0x3A3 then
        if casedAhead before && !casedAhead s then [Char.ofNat 0x3C2] else [Char.ofNat 0x3C3]
      else lowerChar c
    form ++ lowerAfter (c :: before) s

def lower (s : Text) : Text :=
  lowerAfter [] s

end Sveltify.Text
