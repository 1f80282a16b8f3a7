import Sveltify.Script.Cursor
import Sveltify.Text.Identifier

/-! Regular expression literals. -/

namespace Sveltify.Script.Literal

inductive RegexPart where
  | body
  | escape
  | set
  | setEscape
  | flags
deriving DecidableEq

structure RegexScan where
  part : RegexPart := .body
  pattern : Text := []
  flags : Text := []

namespace RegexScan

def push (r : RegexScan) (part : RegexPart) (c : Char) : RegexScan :=
  { r with part, pattern := c :: r.pattern }

def step (r : RegexScan) (c : Char) : Option RegexScan :=
  match r.part with
  | .flags => if Text.isIdContinue c then some { r with flags := c :: r.flags } else none
  | part =>
    if isLineEnd c then none
    else
      match part, c with
      | .body, '/' => some { r with part := .flags }
      | .body, '[' => some (r.push .set c)
      | .body, '\\' => some (r.push .escape c)
      | .set, ']' => some (r.push .body c)
      | .set, '\\' => some (r.push .setEscape c)
      | .set, _ | .setEscape, _ => some (r.push .set c)
      | _, _ => some (r.push .body c)

def hasKnownFlags (r : RegexScan) : Bool :=
  r.flags.all "dgimsuvy".toList.contains && r.flags.eraseDups == r.flags

end RegexScan

end Sveltify.Script.Literal
