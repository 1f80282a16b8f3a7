import Sveltify.Script.Grammar.Module

/-! Reading a whole script. -/

namespace Sveltify.Script

structure Parsed where
  module : Node
  faulty : Bool

def skipInterpreter [Subject] : Place :=
  match Subject.text with
  | '#' :: '!' :: _ => (Place.first.scan (fun _ c => if isLineEnd c then none else some ()) ()).2
  | _ => Place.first

/-- What is read of a text. A byte order mark at its start is dropped, so that offsets count from
after it. -/
def body (text : Text) : Text :=
  (Text.dropPrefix? ['\ufeff'] text).getD text

def read (dialect : Dialect) [Subject] : Except Failure Parsed :=
  let limit := Subject.text.length + 2
  let scope : Grammar.Scope := { dialect, limit }
  let state : Grammar.State :=
    { token := Grammar.Token.readFirst skipInterpreter, last := Place.first, faulty := false }
  match Grammar.module (Grammar.rulesUpTo (8 * limit)) scope state with
  | (.ok module, final) => .ok { module := module.tree, faulty := final.faulty }
  | (.error failure, _) => .error failure

def parse (dialect : Dialect) (text : Text) : Except Failure Parsed :=
  letI : Subject := ⟨body text⟩
  read dialect

end Sveltify.Script
