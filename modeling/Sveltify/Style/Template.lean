import Sveltify.Style.Error
import Sveltify.Style.Rule
import Sveltify.Table
import Sveltify.Text.Case

/-! Style templates: literal text with interpolated names. An exported variable is replaced by its
value, and a private one by a custom property that carries the value. -/

namespace Sveltify.Style

structure Variable where
  value : Text
  exported : Bool
deriving DecidableEq, Repr, Inhabited

inductive Reference where
  | named (name : String)
  | unsupported (expression : String)
deriving DecidableEq, Repr, Inhabited

/-- Literal segments with an interpolation after each but the last. -/
structure Template where
  segments : List Text := []
  references : List Reference := []
deriving DecidableEq, Repr, Inhabited

structure Module where
  constants : Table Variable := []
  template : Template := {}
deriving Inhabited

namespace Module

def constant? (m : Module) (name : String) : Option Variable :=
  m.constants.get? name

def exportedValue? (m : Module) (name : String) : Option Text :=
  ((m.constant? name).filter (·.exported)).map (·.value)

def exports (m : Module) : List (String × Text) :=
  (m.constants.filter (·.2.exported)).map fun (name, v) => (name, v.value)

end Module

def kebabCase (name : String) : Text :=
  Text.lower (name.toList.map fun c => if c == '_' then '-' else c)

structure OwnedProperty where
  owner : String
  property : CustomProperty
deriving DecidableEq, Repr, Inhabited

def substitute (m : Module) (owned : List OwnedProperty) :
    Reference → Except Error (Text × List OwnedProperty)
  | .unsupported expression => .error (.unsupportedInterpolation expression)
  | .named name =>
    match m.constant? name with
    | none => .error (.unresolvedVariable name)
    | some ⟨value, true⟩ => .ok (value, owned)
    | some ⟨value, false⟩ =>
      let property := kebabCase name
      let call := "var(--".toList ++ property ++ [')']
      match owned.find? (·.property.name == property) with
      | none => .ok (call, owned ++ [⟨name, ⟨property, value⟩⟩])
      | some first =>
        if first.owner == name then .ok (call, owned)
        else .error (.customPropertyConflict (String.ofList property) first.owner name)

def Error.isConflict : Error → Bool
  | .customPropertyConflict .. => true
  | _ => false

def interpolate (m : Module) (strict : Bool) (owned : List OwnedProperty) :
    List Text → List Reference → Except Error (Text × List OwnedProperty)
  | [], _ => .ok ([], owned)
  | segment :: segments, [] => do
    let (rest, owned) ← interpolate m strict owned segments []
    return (segment ++ rest, owned)
  | segment :: segments, reference :: references =>
    match substitute m owned reference with
    | .ok (value, owned) => do
      let (rest, owned) ← interpolate m strict owned segments references
      return (segment ++ value ++ rest, owned)
    | .error e =>
      if strict || e.isConflict then .error e
      else do
        let (rest, owned) ← interpolate m strict owned segments references
        return (segment ++ rest, owned)

structure FlatTemplate where
  text : Text
  customProperties : List CustomProperty
deriving DecidableEq, Repr, Inhabited

def flattenTemplate (m : Module) (strict : Bool) : Except Error FlatTemplate := do
  let (text, owned) ← interpolate m strict [] m.template.segments m.template.references
  return ⟨text, owned.map (·.property)⟩

end Sveltify.Style
