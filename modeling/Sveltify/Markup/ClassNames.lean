import Sveltify.Markup.Node

/-! Class names made of static text and live expressions. While blanks are collapsed, each live
expression is kept as a mark: its number between two null characters. -/

namespace Sveltify.Markup

inductive ClassPiece where
  | fixed (text : Text)
  | live (code : Text)
deriving DecidableEq, Repr, Inhabited

namespace ClassPiece

def mark (number : Nat) : Text :=
  '\x00' :: (toString number).toList ++ ['\x00']

def marked : Nat → List ClassPiece → Text
  | _, [] => []
  | number, .fixed text :: rest => text ++ marked number rest
  | number, .live _ :: rest => mark number ++ marked (number + 1) rest

def liveCodes : List ClassPiece → List Text
  | [] => []
  | .fixed _ :: rest => liveCodes rest
  | .live code :: rest => code :: liveCodes rest

/-- Writes a text with every run of blanks as one space; a run at the end is dropped, and one at the
start too. `started` says that something was written, `gap` that blanks wait to be written. -/
def collapse : (started gap : Bool) → Text → Text
  | _, _, [] => []
  | started, gap, c :: rest =>
    if Text.isBlank c then collapse started true rest
    else (if started && gap then [' '] else []) ++ c :: collapse true false rest

/-- Replaces every occurrence of `old`, of which none overlaps the one before it; `skip` characters
of an occurrence are yet to be passed over. -/
def replaceFrom (old new : Text) : (skip : Nat) → Text → Text
  | _, [] => []
  | skip + 1, _ :: rest => replaceFrom old new skip rest
  | 0, c :: rest =>
    if old.isPrefixOf (c :: rest) then new ++ replaceFrom old new (old.length - 1) rest
    else c :: replaceFrom old new 0 rest

def fill : Nat → List Text → Text → Text
  | _, [], text => text
  | number, code :: rest, text =>
    fill (number + 1) rest (replaceFrom (mark number) (braced code) 0 text)

def compose (pieces : List ClassPiece) : Option AttributeValue :=
  let text := collapse false false (marked 0 pieces)
  match text, liveCodes pieces with
  | [], _ => none
  | text, [] => some (.literal ('"' :: text ++ ['"']))
  | text, codes => some (.interpolated (fill 0 codes text))

end ClassPiece

end Sveltify.Markup
