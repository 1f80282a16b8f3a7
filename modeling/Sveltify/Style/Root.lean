import Sveltify.Style.Error
import Sveltify.Text.Lines

/-! Normalization of a style template: comments go, the text is dedented, and the bare declarations
that it starts with are wrapped in a rule of the root class. -/

namespace Sveltify.Style

def pushChar (c : Char) : List (Bool × Text) → List (Bool × Text)
  | [] => [(false, [c])]
  | (commented, line) :: rest => (commented, c :: line) :: rest

/-- The lines without their comments, each marked when a comment touched it. A quote ends with its
line, and a comment mark inside a quote is text. -/
def uncommentedLines (inComment commented : Bool) (quote : Option Char) :
    Text → List (Bool × Text)
  | [] => [(commented || inComment, [])]
  | '\n' :: rest => (commented || inComment, []) :: uncommentedLines inComment inComment none rest
  | c :: rest =>
    if inComment then
      match c, rest with
      | '*', '/' :: rest => uncommentedLines false commented quote rest
      | _, rest => uncommentedLines true commented quote rest
    else
      match quote with
      | some q =>
        pushChar c (uncommentedLines false commented (if c == q then none else quote) rest)
      | none =>
        if c == '"' || c == '\'' then pushChar c (uncommentedLines false commented (some c) rest)
        else
          match c, rest with
          | '/', '*' :: rest => uncommentedLines true true none rest
          | c, rest => pushChar c (uncommentedLines false commented none rest)

theorem uncommentedLines_skip {c : Char} {rest : Text} {commented : Bool} {quote : Option Char}
    (hbreak : c ≠ '\n') (hclose : c = '*' → rest.head? ≠ some '/') :
    uncommentedLines true commented quote (c :: rest) =
      uncommentedLines true commented quote rest := by
  rw [uncommentedLines.eq_def]
  split
  · contradiction
  · next heq => exact absurd (List.cons.inj heq).1 hbreak
  · next heq =>
    obtain ⟨rfl, rfl⟩ := List.cons.inj heq
    simp only [if_true]
    split
    · exact absurd rfl (hclose rfl)
    · rfl

def stripComments (s : Text) : Text :=
  Text.unlines (((uncommentedLines false false none s).filter
    fun (commented, line) => !commented || !Text.isBlankText line).map (·.2))

/-- A line that declares at top level: it has no braces and does not go on in the next line. -/
def isBareDeclaration (line : Text) : Bool :=
  !line.contains '\x7b' && !line.contains '\x7d' && (Text.trim line).getLast? != some ','

/-- The line without the margin, or trimmed when it does not start with it; a blank line becomes
empty. -/
def dedent (margin line : Text) : Text :=
  if Text.isBlankText line then []
  else
    match Text.dropPrefix? margin line with
    | some rest => Text.trimEnd rest
    | none => Text.trim line

def dedentLines (lines : List Text) : List Text :=
  let margin := ((lines.find? (!Text.isBlankText ·)).map (·.takeWhile Text.isBlank)).getD []
  lines.map (dedent margin)

def dropFirstBreak : Text → Text
  | '\r' :: '\n' :: rest => rest
  | '\n' :: rest => rest
  | s => s

/-- The leading group, indented one level, and the lines after it. The group ends at a blank line
outside of braces, or before a line that closes more braces than are open. -/
def splitGroup (depth : Nat) : List Text → List Text × List Text
  | [] => ([], [])
  | line :: rest =>
    if Text.isBlankText line then
      if depth == 0 then ([], line :: rest)
      else
        let (group, others) := splitGroup depth rest
        ([] :: group, others)
    else
      let opens := line.count '\x7b'
      let closes := line.count '\x7d'
      if depth + opens < closes then ([], line :: rest)
      else
        let (group, others) := splitGroup (depth + opens - closes) rest
        ((' ' :: ' ' :: line) :: group, others)

def wrapRoot (lines : List Text) (root : Option Text) (exportName : String) :
    Except Error (List Text) :=
  match lines.dropWhile Text.isBlankText with
  | [] => .ok []
  | first :: rest =>
    if isBareDeclaration first then
      match root with
      | none => .error (.missingRootClass exportName)
      | some selector =>
        let (group, others) := splitGroup 0 (first :: rest)
        .ok ((selector ++ [' ', '\x7b']) :: group ++ ['\x7d'] :: others)
    else .ok (first :: rest)

def normalizeRoot (s : Text) (root : Option Text) (exportName : String) : Except Error Text :=
  let lines := dedentLines (Text.lines (dropFirstBreak (stripComments s)))
  (wrapRoot lines root exportName).map fun out =>
    Text.unlines (Text.dropEndWhile Text.isBlankText out)

end Sveltify.Style
