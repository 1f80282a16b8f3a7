import Sveltify.Data.Basic
import Sveltify.Number.Shortest

/-! Values of the expressions in a configuration script. -/

namespace Sveltify.Config

inductive PathFunction where
  | resolve
  | join
deriving DecidableEq, Repr, Inhabited

inductive Value where
  | null
  | bool (value : Bool)
  | number (value : Double)
  | string (value : String)
  | regex (pattern flags : String)
  | list (items : List Value)
  | record (fields : List (String × Value))
  | pathModule
  | pathFunction (function : PathFunction)
deriving Inhabited

namespace Value

def member? : Value → String → Option Value
  | .pathModule, name =>
    if name == "resolve" then some (.pathFunction .resolve)
    else if name == "join" then some (.pathFunction .join)
    else none
  | .record fields, name => fields.lookup name
  | _, _ => none

def text? : Value → Option String
  | .string value => some value
  | .number value => some value.textInString
  | .bool true => some "true"
  | .bool false => some "false"
  | .null => some "null"
  | _ => none

def regexText (pattern flags : String) : String :=
  let kept := flags.toList.filter fun c => c == 'i' || c == 'm' || c == 's'
  if kept.isEmpty then pattern else "(?" ++ String.ofList kept ++ ")" ++ pattern

def numberData : Double → Data
  | .infinite => .null
  | value => .number value.text

mutual

def toData : Value → Data
  | .null | .pathModule | .pathFunction _ => .null
  | .bool value => .bool value
  | .number value => numberData value
  | .string value => .string value
  | .regex pattern flags => .string (regexText pattern flags)
  | .list items => .list (allToData items)
  | .record fields => .record (fieldsToData fields)

def allToData : List Value → List Data
  | [] => []
  | item :: rest => item.toData :: allToData rest

def fieldsToData : List (String × Value) → List (String × Data)
  | [] => []
  | (key, value) :: rest => (key, value.toData) :: fieldsToData rest

end

end Value

end Sveltify.Config
