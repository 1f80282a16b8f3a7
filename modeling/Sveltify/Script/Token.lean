import Sveltify.Script.Literal.Number
import Sveltify.Script.Literal.Quoted
import Sveltify.Script.Literal.Regex
import Sveltify.Source.Span

/-! Tokens of scripts. `Token.ofTrivia` reads a token as it stands in plain code; regular
expressions, template pieces and markup are read again from the token's start by the grammar, which
knows where they may stand. What is no token of the language is `invalid`, so that only a grammar
that takes it fails. -/

namespace Sveltify.Script

inductive Lexeme where
  /-- A word, with whether it starts with an escape, so that it is a name and no keyword. -/
  | word (name : String) (escaped : Bool)
  | privateWord (name : String)
  | punct (text : String)
  | string (value : String)
  | number (mantissa : Nat) (exponent : Int)
  | bigint
  | stop
  | invalid
deriving DecidableEq, Inhabited

structure Token where
  lexeme : Lexeme
  start : Cursor
  stop : Cursor
  newline : Bool
  faulty : Bool
deriving Inhabited

inductive WordPart where
  | plain
  | backslash
  | unicode
  | hex (left value : Nat)
  | braced (value : Nat)
deriving DecidableEq

/-- A word while it is read, its last character first, with whether an escape stands at its start
and whether one stands anywhere. -/
structure WordScan where
  part : WordPart := .plain
  name : Text := []
  leading : Bool := false
  escaped : Bool := false

namespace WordScan

def push (r : WordScan) (c : Char) : Option WordScan :=
  if (if r.name.isEmpty then Text.isIdStart c else Text.isIdContinue c) then
    some { r with part := .plain, name := c :: r.name }
  else none

def step (r : WordScan) (c : Char) : Option WordScan :=
  match r.part with
  | .plain =>
    if c == '\\' then
      some { r with part := .backslash, leading := r.leading || r.name.isEmpty, escaped := true }
    else r.push c
  | .backslash => if c == 'u' then some { r with part := .unicode } else none
  | .unicode =>
    if c == '\x7b' then some { r with part := .braced 0 }
    else (Text.hexDigit? c).map fun d => { r with part := .hex 3 d }
  | .hex left value =>
    (Text.hexDigit? c).bind fun d =>
      if left ≤ 1 then r.push (Char.ofNat (value * 16 + d))
      else some { r with part := .hex (left - 1) (value * 16 + d) }
  | .braced value =>
    if c == '\x7d' then r.push (Char.ofNat value)
    else (Text.hexDigit? c).map fun d => { r with part := .braced (value * 16 + d) }

end WordScan

def punctuators : List String := [
  ">>>=", "...", "===", "!==", "**=", "<<=", ">>=", ">>>", "&&=", "||=", "??=", "=>", "==", "!=",
  "<=", ">=", "&&", "||", "??", "?.", "++", "--", "+=", "-=", "*=", "/=", "%=", "&=", "|=", "^=",
  "<<", ">>", "**", "\x7b", "\x7d", "(", ")", "[", "]", ";", ",", "<", ">", "+", "-", "*", "/",
  "%", "&", "|", "^", "!", "~", "?", ":", "=", ".", "@", "`"]

/-- The longest punctuator at a text. An optional-chain mark is none before a digit. -/
def punctuator? (text : Text) : Option String :=
  match text with
  | '?' :: '.' :: d :: _ => if d.isDigit then some "?" else find text
  | _ => find text
where
  find (text : Text) : Option String :=
    punctuators.find? fun p => p.toList.isPrefixOf text

def reservedWords : List String := [
  "break", "case", "catch", "class", "const", "continue", "debugger", "default", "delete", "do",
  "else", "enum", "export", "extends", "false", "finally", "for", "function", "if", "import", "in",
  "instanceof", "new", "null", "return", "super", "switch", "this", "throw", "true", "try",
  "typeof", "var", "void", "while", "with"]

def plainWords : List String :=
  "await" :: "yield" :: reservedWords

namespace Token

def readWord (cursor : Cursor) : Option (WordScan × Cursor) :=
  let (r, stop) := cursor.scan WordScan.step {}
  if r.part == .plain && !r.name.isEmpty then some (r, stop) else none

def ofWord (r : WordScan) : Lexeme :=
  let name := String.ofList r.name.reverse
  if r.escaped && !r.leading && plainWords.contains name then .invalid else .word name r.leading

def readNumber (cursor : Cursor) : Lexeme × Bool × Cursor :=
  let (r, stop) := cursor.scan Literal.NumberScan.step {}
  let joined := stop.rest.head?.any Text.isIdStart
  if !r.isComplete || joined then (.invalid, false, stop)
  else if r.part == .big then (.bigint, r.isFaulty, stop)
  else
    let (mantissa, exponent) := r.value
    (.number mantissa exponent, r.isFaulty, stop)

def readString (quote : Char) (cursor : Cursor) : Lexeme × Bool × Cursor :=
  let (r, stop) := cursor.scan (Literal.StringScan.step quote) {}
  if r.isComplete then (.string (String.ofList r.value), r.faulty || r.part != .closed, stop)
  else (.invalid, false, stop)

def readLexeme (cursor : Cursor) : Lexeme × Bool × Cursor :=
  match cursor.rest with
  | [] => (.stop, false, cursor)
  | c :: rest =>
    if c == '"' || c == '\'' then readString c (cursor.advance 1)
    else if c.isDigit || (c == '.' && rest.head?.any Char.isDigit) then readNumber cursor
    else if c == '#' then
      match readWord (cursor.advance 1) with
      | some (r, stop) => (.privateWord (String.ofList r.name.reverse), false, stop)
      | none => (.invalid, false, cursor.advance 1)
    else
      match readWord cursor with
      | some (r, stop) => (ofWord r, false, stop)
      | none =>
        match punctuator? cursor.rest with
        | some text => (.punct text, false, cursor.advance text.length)
        | none => (.invalid, false, cursor.advance 1)

def ofTrivia (trivia : Trivia) : Token :=
  let (lexeme, faulty, stop) := readLexeme trivia.stop
  ⟨lexeme, trivia.stop, stop, trivia.newline, trivia.faulty || faulty⟩

end Token

end Sveltify.Script
