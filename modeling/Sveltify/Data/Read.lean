import Sveltify.Data.Basic
import Sveltify.Number.Double
import Sveltify.Text.Digit

/-! Reading JSON. Lists and records may be nested up to a limit, and of fields with one name the
last one counts. -/

namespace Sveltify.Data

def isSpace (c : Char) : Bool :=
  c == ' ' || c == '\n' || c == '\t' || c == '\r'

def skipSpace (text : Text) : Text :=
  text.dropWhile isSpace

inductive StringPart where
  | plain
  | escape
  | hex (left value : Nat)

def escapeCode? : Char → Option Nat
  | '"' => some 34
  | '\\' => some 92
  | '/' => some 47
  | 'b' => some 8
  | 'f' => some 12
  | 'n' => some 10
  | 'r' => some 13
  | 't' => some 9
  | _ => none

def readCodes? : StringPart → Text → Option (List Nat × Text)
  | _, [] => none
  | .plain, c :: rest =>
    if c == '"' then some ([], rest)
    else if c == '\\' then readCodes? .escape rest
    else if c.toNat < 0x20 then none
    else (readCodes? .plain rest).map fun (codes, rest) => (c.toNat :: codes, rest)
  | .escape, c :: rest =>
    if c == 'u' then readCodes? (.hex 4 0) rest
    else
      (escapeCode? c).bind fun code =>
        (readCodes? .plain rest).map fun (codes, rest) => (code :: codes, rest)
  | .hex left value, c :: rest =>
    (Text.hexDigit? c).bind fun digit =>
      let value := value * 16 + digit
      if left ≤ 1 then
        (readCodes? .plain rest).map fun (codes, rest) => (value :: codes, rest)
      else readCodes? (.hex (left - 1) value) rest

def isSurrogate (n : Nat) : Bool :=
  0xD800 ≤ n && n ≤ 0xDFFF

def ofCodes? : List Nat → Option Text
  | [] => some []
  | [n] => if isSurrogate n then none else some [Char.ofNat n]
  | high :: low :: rest =>
    if isSurrogate high then
      if high ≤ 0xDBFF && 0xDC00 ≤ low && low ≤ 0xDFFF then
        let code := 0x10000 + (high - 0xD800) * 0x400 + (low - 0xDC00)
        (ofCodes? rest).map (Char.ofNat code :: ·)
      else none
    else (ofCodes? (low :: rest)).map (Char.ofNat high :: ·)

def readString? (text : Text) : Option (String × Text) :=
  (readCodes? .plain text).bind fun (codes, rest) =>
    (ofCodes? codes).map fun value => (String.ofList value, rest)

def readDigits? (text : Text) : Option (Text × Text) :=
  let digits := text.takeWhile Char.isDigit
  if digits.isEmpty then none else some (digits, text.drop digits.length)

def readWhole? : Text → Option (Text × Text)
  | '0' :: rest => some (['0'], rest)
  | text => readDigits? text

def readFraction? : Text → Option (Text × Text)
  | '.' :: rest => readDigits? rest
  | text => some ([], text)

def readExponent? : Text → Option (Bool × Text × Text)
  | c :: rest =>
    if c == 'e' || c == 'E' then
      match rest with
      | '-' :: rest => (readDigits? rest).map (true, ·)
      | '+' :: rest => (readDigits? rest).map (false, ·)
      | rest => (readDigits? rest).map (false, ·)
    else some (false, [], c :: rest)
  | [] => some (false, [], [])

def decimal (digits : Text) : Nat :=
  digits.foldl (fun n c => n * 10 + (c.toNat - 48)) 0

def readNumber? (text : Text) : Option (Data × Text) := do
  let unsigned := match text with
    | '-' :: rest => rest
    | _ => text
  let (whole, rest) ← readWhole? unsigned
  let (fraction, rest) ← readFraction? rest
  let (negative, exponent, rest) ← readExponent? rest
  let power : Int := if negative then -(decimal exponent : Int) else decimal exponent
  match Double.ofDecimal (decimal (whole ++ fraction)) (power - fraction.length) with
  | .infinite => none
  | .finite .. =>
    return (.number (String.ofList (text.take (text.length - rest.length))), rest)

def readScalar? (text : Text) : Option (Data × Text) :=
  match text with
  | '"' :: rest => (readString? rest).map fun (value, rest) => (.string value, rest)
  | _ =>
    match Text.dropPrefix? "null".toList text with
    | some rest => some (.null, rest)
    | none =>
      match Text.dropPrefix? "true".toList text with
      | some rest => some (.bool true, rest)
      | none =>
        match Text.dropPrefix? "false".toList text with
        | some rest => some (.bool false, rest)
        | none => readNumber? text

def readItems? {α : Type} (item? : Text → Option (α × Text)) (close : Char) :
    (fuel : Nat) → Text → Option (List α × Text)
  | 0, _ => none
  | fuel + 1, text =>
    (item? (skipSpace text)).bind fun (item, rest) =>
      match skipSpace rest with
      | [] => none
      | c :: rest =>
        if c == ',' then
          (readItems? item? close fuel rest).map fun (items, rest) => (item :: items, rest)
        else if c == close then some ([item], rest)
        else none

def readBody? {α : Type} (item? : Text → Option (α × Text)) (close : Char) (text : Text) :
    Option (List α × Text) :=
  match skipSpace text with
  | [] => none
  | c :: rest =>
    if c == close then some ([], rest) else readItems? item? close text.length (c :: rest)

def readField? (value? : Text → Option (Data × Text)) : Text → Option ((String × Data) × Text)
  | '"' :: rest => do
    let (key, rest) ← readString? rest
    match skipSpace rest with
    | ':' :: rest =>
      let (value, rest) ← value? (skipSpace rest)
      return ((key, value), rest)
    | _ => none
  | _ => none

def readValue? : (depth : Nat) → Text → Option (Data × Text)
  | 0, text => readScalar? text
  | depth + 1, text =>
    match text with
    | '[' :: rest => (readBody? (readValue? depth) ']' rest).map fun (items, rest) =>
        (.list items, rest)
    | '\x7b' :: rest => (readBody? (readField? (readValue? depth)) '\x7d' rest).map
        fun (fields, rest) => (.record (Table.ofList fields), rest)
    | text => readScalar? text

def depthLimit : Nat := 127

def ofJson? (text : String) : Option Data :=
  match readValue? depthLimit (skipSpace text.toList) with
  | some (value, rest) => if (skipSpace rest).isEmpty then some value else none
  | none => none

end Sveltify.Data
