import Sveltify.Table

/-! Plain data: what a JSON text denotes. -/

namespace Sveltify

/-- A piece of data. A number is kept as it is written, and a record keeps its fields in order. -/
inductive Data where
  | null
  | bool (value : Bool)
  | number (literal : String)
  | string (value : String)
  | list (items : List Data)
  | record (fields : List (String × Data))
deriving Inhabited

namespace Data

def ofNat (n : Nat) : Data :=
  .number (toString n)

def string? : Data → Option String
  | .string value => some value
  | _ => none

def bool? : Data → Option Bool
  | .bool value => some value
  | _ => none

def listOf? {α : Type} (item? : Data → Option α) : Data → Option (List α)
  | .list items => items.mapM item?
  | _ => none

def tableOf? {α : Type} (value? : Data → Option α) : Data → Option (Table α)
  | .record fields => fields.mapM fun (key, value) => (value? value).map (key, ·)
  | _ => none

def optional? {α : Type} (value? : Data → Option α) : Data → Option (Option α)
  | .null => some none
  | value => (value? value).map some

end Data

end Sveltify
