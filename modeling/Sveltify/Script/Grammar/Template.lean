import Sveltify.Script.Grammar.Basic

/-! Templates: pieces of text with parts in braces between them. -/

namespace Sveltify.Script.Grammar

variable [Subject]

/-- Reads the pieces of a template and the parts between them, from a cursor at the start of a
piece. A piece with a malformed escape may stand only in a tagged template. -/
def templateFrom (part : Reader Node) (tagged : Bool) :
    Nat → Place → Reader (List String × List Node)
  | 0, _ => throw .tooDeep
  | n + 1, cursor => do
    let (piece, stop) := cursor.scan Literal.PieceScan.step {}
    let raw := String.ofList piece.raw.reverse
    if piece.faulty && !tagged then throw (.unexpected cursor.offset)
    else
      match piece.part with
      | .ended =>
        resume stop
        return ([raw], [])
      | .opened =>
        resume stop
        let node ← part
        if ← startsWith '\x7d' then
          let (raws, nodes) ← templateFrom part tagged n ((← peek).start.advance 1)
          return (raw :: raws, node :: nodes)
        else unexpected
      | _ => throw (.unexpected stop.offset)

def template (part : Reader Node) (tagged : Bool) : Reader Node := do
  let token ← peek
  if token.lexeme == .punct "`" then
    let (raws, nodes) ← templateFrom part tagged (← read).limit token.stop
    close (.template raws) token.start [← listOf nodes]
  else unexpected

end Sveltify.Script.Grammar
