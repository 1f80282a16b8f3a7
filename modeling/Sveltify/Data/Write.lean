import Sveltify.Data.Basic
import Sveltify.Text.Lines

/-! Writing JSON over several lines, each level indented by two blanks. -/

namespace Sveltify.Data

def controlDigits (n : Nat) : Text :=
  ['0', '0', Nat.digitChar (n / 16), Nat.digitChar (n % 16)]

def quoteChar (c : Char) : Text :=
  match c with
  | '"' => ['\\', '"']
  | '\\' => ['\\', '\\']
  | '\n' => ['\\', 'n']
  | '\r' => ['\\', 'r']
  | '\t' => ['\\', 't']
  | _ =>
    if c.toNat == 8 then ['\\', 'b']
    else if c.toNat == 12 then ['\\', 'f']
    else if c.toNat < 0x20 then '\\' :: 'u' :: controlDigits c.toNat
    else [c]

def quote (value : String) : Text :=
  '"' :: value.toList.flatMap quoteChar ++ ['"']

def lineAt (level : Nat) : Text :=
  '\n' :: List.replicate (2 * level) ' '

def bracketed (opening closing : Char) (level : Nat) (parts : List Text) : Text :=
  if parts.isEmpty then [opening, closing]
  else
    let inner := Text.joinWith [','] (parts.map (lineAt (level + 1) ++ ·))
    opening :: inner ++ lineAt level ++ [closing]

mutual

def writeAt (level : Nat) : Data → Text
  | .null => "null".toList
  | .bool true => "true".toList
  | .bool false => "false".toList
  | .number literal => literal.toList
  | .string value => quote value
  | .list items => bracketed '[' ']' level (writeItems (level + 1) items)
  | .record fields => bracketed '\x7b' '\x7d' level (writeFields (level + 1) fields)

def writeItems (level : Nat) : List Data → List Text
  | [] => []
  | item :: rest => writeAt level item :: writeItems level rest

def writeFields (level : Nat) : List (String × Data) → List Text
  | [] => []
  | (key, value) :: rest =>
    (quote key ++ ':' :: ' ' :: writeAt level value) :: writeFields level rest

end

def toJson (data : Data) : String :=
  String.ofList (writeAt 0 data)

end Sveltify.Data
