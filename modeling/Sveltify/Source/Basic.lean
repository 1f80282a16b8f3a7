import Sveltify.Source.Span
import Sveltify.Text.Lines

/-! A source text addressed by byte offsets. Offsets are counted in the UTF-8 form of the text; an
offset beyond the end stands for the end, and one inside a character for that character's start,
except in `slice`, which answers nothing for a range that does not fall on characters. -/

namespace Sveltify

namespace Text

def splitAtByte : Nat → Text → Text × Text
  | _, [] => ([], [])
  | n, c :: s =>
    if c.utf8Size ≤ n then
      let (before, after) := splitAtByte (n - c.utf8Size) s
      (c :: before, after)
    else ([], c :: s)

def dropBytes? : Nat → Text → Option Text
  | 0, s => some s
  | _ + 1, [] => none
  | n + 1, c :: s => if c.utf8Size ≤ n + 1 then dropBytes? (n + 1 - c.utf8Size) s else none

def takeBytes? : Nat → Text → Option Text
  | 0, _ => some []
  | _ + 1, [] => none
  | n + 1, c :: s =>
    if c.utf8Size ≤ n + 1 then (takeBytes? (n + 1 - c.utf8Size) s).map (c :: ·) else none

/-- The bytes from `span.start` up to `span.stop`, if both offsets fall on characters. -/
def bytes? (s : Text) (span : Span) : Option Text :=
  if span.start ≤ span.stop then
    (dropBytes? span.start s).bind (takeBytes? (span.stop - span.start))
  else none

end Text

structure Source where
  text : Text
deriving Inhabited

namespace Source

def ofString (s : String) : Source :=
  ⟨s.toList⟩

variable (source : Source)

def size : Nat :=
  source.text.byteSize

def before (offset : Nat) : Text :=
  (source.text.splitAtByte offset).1

def after (offset : Nat) : Text :=
  (source.text.splitAtByte offset).2

def isBoundary (offset : Nat) : Bool :=
  (source.text.dropBytes? offset).isSome

def slice (span : Span) : Text :=
  (source.text.bytes? span).getD []

def sliceString (span : Span) : String :=
  String.ofList (source.slice span)

/-- Line and column, both counted from 1, after the characters that start before the offset. -/
def lineColumnFrom (offset : Nat) : (line column current : Nat) → Text → Nat × Nat
  | line, column, _, [] => (line, column)
  | line, column, current, c :: s =>
    if current ≥ offset then (line, column)
    else if c == '\n' then lineColumnFrom offset (line + 1) 1 (current + c.utf8Size) s
    else lineColumnFrom offset line (column + 1) (current + c.utf8Size) s

def lineColumn (offset : Nat) : Nat × Nat :=
  lineColumnFrom offset 1 1 0 source.text

def lineHead (offset : Nat) : Text :=
  ((source.before offset).reverse.takeWhile (· != '\n')).reverse

def lineStart (offset : Nat) : Nat :=
  (source.before offset).byteSize - (source.lineHead offset).byteSize

def lineIndent (offset : Nat) : Text :=
  (source.after (source.lineStart offset)).takeWhile Text.isIndent

def startsLine (offset : Nat) : Bool :=
  (source.lineHead offset).all Text.isIndent

def column (offset : Nat) : Nat :=
  (source.lineHead offset).length

/-- The column against which the lines after the first of a node are written: the node's own column
when it starts a line, else the indentation of its line. -/
def blockIndent (offset : Nat) : Nat :=
  if source.startsLine offset then source.column offset else (source.lineIndent offset).length

def dropStatementEnd (s : Text) : Text :=
  ((s.dropWhile Text.isIndent).dropWhile (· == ';')).dropWhile Text.isIndent

/-- The range widened to the whole lines that it occupies when nothing but blanks shares them, so
that removing it leaves no blank line. -/
def statementRange (span : Span) : Span :=
  if !source.startsLine span.start then span
  else
    let rest := source.after span.stop
    let left := dropStatementEnd rest
    let stop := min span.stop source.size + (rest.byteSize - left.byteSize)
    match left with
    | '\r' :: '\n' :: _ => ⟨source.lineStart span.start, stop + 2⟩
    | '\n' :: _ => ⟨source.lineStart span.start, stop + 1⟩
    | [] => ⟨source.lineStart span.start, stop⟩
    | _ => span

def statementCuts (span : Span) : List Nat :=
  if source.startsLine span.start then [span.start, span.stop] else [span.start]

theorem statementCuts_subset (span : Span) :
    source.statementCuts span ⊆ [span.start, span.stop] := by
  unfold statementCuts
  split <;> simp

def blanksAfter (offset : Nat) : Nat :=
  Text.byteSize ((source.after offset).takeWhile Text.isBlank)

end Source

end Sveltify
