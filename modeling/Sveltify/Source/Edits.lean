import Sveltify.Source.Basic

/-! Replacements of byte ranges of a source. Ranges may nest: rendering applies the outermost
replacement of a nested group and skips those inside it. -/

namespace Sveltify

structure Edit where
  span : Span
  text : Text
deriving DecidableEq, Inhabited

structure EditSet where
  edits : List Edit
deriving Inhabited

namespace EditSet

def empty : EditSet :=
  ⟨[]⟩

def replace (set : EditSet) (span : Span) (text : Text) : EditSet :=
  ⟨set.edits ++ [⟨span, text⟩]⟩

def remove (set : EditSet) (span : Span) : EditSet :=
  set.replace span []

/-- The order in which replacements are applied: by start, and of two with one start the longer
first. -/
def precedes (a b : Edit) : Bool :=
  a.span.start < b.span.start || (a.span.start == b.span.start && b.span.stop ≤ a.span.stop)

def insert (e : Edit) : List Edit → List Edit
  | [] => [e]
  | f :: rest => if precedes e f then e :: f :: rest else f :: insert e rest

/-- The replacements in the order in which they are applied; of two with one range the one recorded
first comes first. -/
def ordered : List Edit → List Edit
  | [] => []
  | e :: rest => insert e (ordered rest)

/-- The text up to `stop`, where `cursor` is the offset reached: a replacement that starts before
the cursor lies inside one already applied and is skipped. -/
def apply (source : Source) (stop : Nat) : (cursor : Nat) → List Edit → Text
  | cursor, [] => source.slice ⟨cursor, stop⟩
  | cursor, e :: rest =>
    if e.span.start < cursor then apply source stop cursor rest
    else source.slice ⟨cursor, e.span.start⟩ ++ e.text ++ apply source stop e.span.stop rest

def render (set : EditSet) (source : Source) (span : Span) : Text :=
  apply source span.stop span.start (ordered (set.edits.filter fun e => span.contains e.span))

end EditSet

end Sveltify
