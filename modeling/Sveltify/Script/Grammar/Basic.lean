import Sveltify.Script.Dialect
import Sveltify.Script.Grammar.Node

/-! The reader of the script grammar: a state with the current token, a scope that says what may
stand at a place, and the small readers from which the rules are built. A script that is not of the
grammar fails; one that only strict code forbids is read and marked as faulty. -/

namespace Sveltify.Script

inductive Failure where
  | unexpected (offset : Nat)
  | tooDeep
deriving DecidableEq, Repr, Inhabited

namespace Grammar

structure Scope where
  dialect : Dialect
  limit : Nat
  async : Bool := false
  generator : Bool := false
  function : Bool := false
  noIn : Bool := false
  /-- The first branch of a conditional, where a colon ends an arrow function's parameters. -/
  colonAhead : Bool := false
  noConditional : Bool := false
  breakable : Bool := false
  loop : Bool := false
  labels : List String := []
  ambient : Bool := false
  method : Bool := false
  /-- Inside a class or a function that is no arrow function, where `new.target` may stand. -/
  target : Bool := false
  /-- Inside the value of a class field or a static block, where `arguments` may not stand. -/
  field : Bool := false
  /-- Inside the parameters of a function, where it may neither wait nor give something away. -/
  parameters : Bool := false
  derived : Bool := false
  abstract : Bool := false

variable [Subject]

structure State where
  token : Token
  last : Place
  faulty : Bool
  /-- Where the arrays and objects start that end in a spread with a comma after it. -/
  commas : List Nat := []

abbrev Reader (α : Type) := ReaderT Scope (ExceptT Failure (StateM State)) α

def peek : Reader Token := do
  return (← get).token

def peekSecond : Reader Token := do
  return Token.read (← get).token.stop

def offset : Reader Place := do
  return (← get).token.start

def lastOffset : Reader Place := do
  return (← get).last

def unexpected {α : Type} : Reader α := do
  throw (.unexpected (← get).token.start.offset)

def fault : Reader Unit :=
  modify fun s => { s with faulty := true }

def faultIf (condition : Bool) : Reader Unit :=
  if condition then fault else pure ()

def resume (place : Place) : Reader Unit :=
  modify fun s => { s with token := Token.read place, last := place }

def next : Reader Token := do
  let token ← peek
  if token.lexeme == .invalid then unexpected
  else
    faultIf token.faulty
    resume token.stop
    return token

def typescript : Reader Bool := do
  return (← read).dialect.typescript

def atPunct (text : String) : Reader Bool := do
  return (← peek).lexeme == .punct text

def atWord (name : String) : Reader Bool := do
  return (← peek).lexeme == .word name false

def isWord : Lexeme → Bool
  | .word _ _ => true
  | _ => false

def atAnyWord : Reader Bool := do
  return isWord (← peek).lexeme

def atNewline : Reader Bool := do
  return (← peek).newline

def eat (text : String) : Reader Bool := do
  if ← atPunct text then
    let _ ← next
    return true
  else return false

def eatIf (condition : Bool) (text : String) : Reader Bool :=
  if condition then eat text else pure false

def eatWord (name : String) : Reader Bool := do
  if ← atWord name then
    let _ ← next
    return true
  else return false

def expect (text : String) : Reader Unit := do
  if ← eat text then return ()
  else unexpected

def expectWord (name : String) : Reader Unit := do
  if ← eatWord name then return ()
  else unexpected

def startsWith (c : Char) : Reader Bool := do
  return (← peek).start.rest.head? == some c

def eatChar (c : Char) : Reader Bool := do
  if ← startsWith c then
    resume ((← peek).start.advance 1)
    return true
  else return false

def expectChar (c : Char) : Reader Unit := do
  if ← eatChar c then return ()
  else unexpected

def attempt {α : Type} (reader : Reader α) : Reader (Option α) := fun scope state =>
  match reader scope state with
  | (.ok a, after) => (.ok (some a), after)
  | (.error .tooDeep, after) => (.error .tooDeep, after)
  | (.error _, _) => (.ok none, state)

def lookAhead {α : Type} (reader : Reader α) : Reader (Option α) := fun scope state =>
  match reader scope state with
  | (.ok a, _) => (.ok (some a), state)
  | (.error .tooDeep, after) => (.error .tooDeep, after)
  | (.error _, _) => (.ok none, state)

/-- Runs a reader; if it fails at a place where `resumes` holds, that is a fault, nothing stands for
what it should have read, and reading goes on at that place. -/
def orNothing (resumes : Lexeme → Bool) (reader : Reader Node) : Reader Node := fun scope state =>
  match reader scope state with
  | (.error (.unexpected offset), after) =>
    if resumes after.token.lexeme then
      (.ok (Node.absentAt after.last), { after with faulty := true })
    else (.error (.unexpected offset), after)
  | result => result

def collect {α : Type} : Nat → Reader (Option α) → Reader (List α)
  | 0, _ => throw .tooDeep
  | n + 1, reader => do
    match ← reader with
    | some a => return a :: (← collect n reader)
    | none => return []

def many {α : Type} (reader : Reader (Option α)) : Reader (List α) := do
  collect (← read).limit reader

def extendUpTo {α : Type} : Nat → (α → Reader (Option α)) → α → Reader α
  | 0, _, _ => throw .tooDeep
  | n + 1, step, a => do
    match ← step a with
    | some b => extendUpTo n step b
    | none => return a

def extend {α : Type} (step : α → Reader (Option α)) (a : α) : Reader α := do
  extendUpTo (← read).limit step a

def commaList {α : Type} (close : String) (item : Reader α) : Reader (List α) :=
  many do
    if ← eat close then return none
    else
      let a ← item
      if ← atPunct close then return some a
      else
        expect ","
        return some a

/-- Reads items up to the closing brace, which is taken. A brace that is missing at the end of the
script is a fault. -/
def untilClosed {α : Type} (item : Reader α) : Reader (List α) :=
  many do
    if ← eat "\x7d" then return none
    else if (← peek).lexeme == .stop then
      fault
      return none
    else return some (← item)

def close (kind : Kind) (start : Place) (kids : List Node)
    (named : kind.isNamed := by first | exact Eq.refl true | (split <;> rfl)) : Reader Node := do
  return .of kind ⟨start, ← lastOffset⟩ kids named

def absent : Reader Node := do
  return Node.absentAt (← lastOffset)

def partIf (condition : Bool) (reader : Reader Node) : Reader Node :=
  if condition then reader else absent

def listOf (nodes : List Node) : Reader Node := do
  let stop ← lastOffset
  let start := (nodes.head?.map (·.span.start)).getD stop
  return .of .list ⟨start, stop⟩ nodes

def atStatementEnd : Reader Bool := do
  let token ← peek
  return token.newline || token.lexeme == .punct ";" || token.lexeme == .punct "\x7d" ||
    token.lexeme == .stop

def semicolon : Reader Unit := do
  if ← eat ";" then return ()
  else if ← atStatementEnd then return ()
  else unexpected

def strictWords : List String := [
  "implements", "interface", "let", "package", "private", "protected", "public", "static", "yield"]

def anyWord : Reader Word := do
  let token ← peek
  match h : token.lexeme with
  | .word name _ =>
    let _ ← next
    return { name, span := token.span, named := by simpa [h, Lexeme.isNamed] using token.named }
  | _ => unexpected

def isIdentifier : Lexeme → Bool
  | .word name escaped => escaped || !reservedWords.contains name
  | _ => false

def atIdentifier : Reader Bool := do
  return isIdentifier (← peek).lexeme

def propertyWord : Reader Node := do
  let word ← anyWord
  return .of (.word word.name) word.span [] word.named

def reference : Reader Node := do
  let scope ← read
  match (← peek).lexeme with
  | .word name escaped =>
    let plain := !escaped && !scope.ambient
    if !(← atIdentifier) || (plain && (name == "yield" || name == "await")) then unexpected
    else
      let word ← anyWord
      faultIf ((!escaped && strictWords.contains name) || (name == "arguments" && scope.field))
      return word.ident
  | _ => unexpected

def binding : Reader Node := do
  let scope ← read
  match (← peek).lexeme with
  | .word name escaped =>
    let named := (← atIdentifier) || ((← typescript) && name == "this")
    if !named || (!escaped && !scope.ambient && name == "await") then unexpected
    else
      let word ← anyWord
      let taken := (!escaped && strictWords.contains name) || name == "eval" || name == "arguments"
      faultIf (taken && !scope.ambient)
      return word.ident
  | _ => unexpected

def privateName : Reader Node := do
  let token ← peek
  match token.lexeme with
  | .privateWord name =>
    let _ ← next
    return .of (.privateName name) token.span []
  | _ => unexpected

def stringLiteral : Reader Node := do
  let token ← peek
  match token.lexeme with
  | .string value =>
    let _ ← next
    return .of (.string value) token.span []
  | _ => unexpected

structure Rules where
  expression : Reader Node
  assignment : Reader Node
  argument : Reader Node
  operand : Reader Node
  /-- Operands joined by operators that bind at least as tight as a level. -/
  binary : Nat → Reader Node
  unary : Reader Node
  callee : Reader Node
  leftHand : Reader Node
  pattern : Reader Node
  type : Reader Node
  statement : Reader Node
  moduleItem : Reader Node
  body : Reader Node
  classMember : Reader Node
  element : Place → Reader (Node × Place)

namespace Rules

def none : Rules where
  expression := throw .tooDeep
  assignment := throw .tooDeep
  argument := throw .tooDeep
  operand := throw .tooDeep
  binary := fun _ => throw .tooDeep
  unary := throw .tooDeep
  callee := throw .tooDeep
  leftHand := throw .tooDeep
  pattern := throw .tooDeep
  type := throw .tooDeep
  statement := throw .tooDeep
  moduleItem := throw .tooDeep
  body := throw .tooDeep
  classMember := throw .tooDeep
  element := fun _ => throw .tooDeep

end Rules

end Grammar

end Sveltify.Script
