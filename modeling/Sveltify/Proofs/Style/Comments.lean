import Mathlib.Data.List.Infix
import Sveltify.Style.Compile

/-! Comments on lines of their own. All that the scan of a template keeps across a line break is
whether a comment is open, so such a comment can stand between any two lines without a trace in the
rules. -/

namespace Sveltify.Style

open List
open Text (isBlank isBlankText)

/-- A line that starts after the text is not marked: no comment is open there. -/
def EndsOutsideComment (s : Text) : Prop :=
  (uncommentedLines false false none (s ++ ['\n'])).getLast? = some (false, [])

instance (s : Text) : Decidable (EndsOutsideComment s) :=
  inferInstanceAs (Decidable (_ = _))

/-- Two parts of a text with a comment on lines of its own between them. -/
def withComment (before margin comment tail after : Text) : Text :=
  before ++ '\n' :: (margin ++ '/' :: '*' :: (comment ++ '*' :: '/' :: (tail ++ '\n' :: after)))

/-! ### Steps of the scan -/

section

variable {c : Char} {rest : Text} {commented : Bool} {quote : Option Char}

theorem uncommentedLines_close :
    uncommentedLines true commented quote ('*' :: '/' :: rest) =
      uncommentedLines false commented quote rest := by
  cases quote <;> rfl

theorem uncommentedLines_quoted {q} (hbreak : c ≠ '\n') :
    uncommentedLines false commented (some q) (c :: rest) =
      pushChar c (uncommentedLines false commented (if c == q then none else some q) rest) := by
  rw [uncommentedLines.eq_def]
  grind

theorem uncommentedLines_quote (hquote : c == '"' || c == '\'') :
    uncommentedLines false commented none (c :: rest) =
      pushChar c (uncommentedLines false commented (some c) rest) := by
  rw [uncommentedLines.eq_def]
  grind

theorem uncommentedLines_plain (hbreak : c ≠ '\n') (hquote : ¬ (c == '"' || c == '\''))
    (hopen : c = '/' → rest.head? ≠ some '*') :
    uncommentedLines false commented none (c :: rest) =
      pushChar c (uncommentedLines false commented none rest) := by
  rw [uncommentedLines.eq_def]
  grind

theorem head?_append_break {s t} (h : ∀ u, s = c :: u → False) (hc : c ≠ '\n') :
    (s ++ '\n' :: t).head? ≠ some c := by
  cases s with
  | nil => simpa using hc.symm
  | cons d s => exact fun heq => h s (by simpa using heq)

end

/-! ### Lines after a line break -/

/-- Lines of a first part, with those of the text after its line break read from a fresh state. -/
def StartsAnew (read : Text → List (Bool × Text)) : Prop :=
  ∃ (isOpen : Bool) (line : Bool × Text) (lines : List (Bool × Text)),
    ∀ s, read s = line :: lines ++ uncommentedLines isOpen isOpen none s

theorem StartsAnew.push {read longer c} (h : StartsAnew read)
    (heq : ∀ s, longer s = pushChar c (read s)) : StartsAnew longer := by
  obtain ⟨isOpen, line, lines, h⟩ := h
  exact ⟨isOpen, (line.1, c :: line.2), lines, fun s => by rw [heq, h]; rfl⟩

theorem startsAnew_uncommentedLines (inComment commented : Bool) (quote : Option Char) (p : Text) :
    StartsAnew fun s => uncommentedLines inComment commented quote (p ++ '\n' :: s) := by
  -- a line break is no part of a comment mark, so the first part is read as it is read alone
  fun_induction uncommentedLines inComment commented quote p with
  | case1 inComment commented =>
    exact ⟨inComment, (commented || inComment, []), [], fun s => by simp [uncommentedLines]⟩
  | case2 inComment commented quote rest ih =>
    obtain ⟨isOpen, line, lines, ih⟩ := ih
    exact ⟨isOpen, (commented || inComment, []), line :: lines, fun s => by
      simp [uncommentedLines, ih]⟩
  | case3 commented quote rest _ ih =>
    simpa only [cons_append, uncommentedLines_close] using ih
  | case4 commented quote c hbreak rest hclose ih =>
    have hskip (s : Text) : uncommentedLines true commented quote (c :: (rest ++ '\n' :: s)) =
        uncommentedLines true commented quote (rest ++ '\n' :: s) :=
      uncommentedLines_skip hbreak fun hc => head?_append_break (hclose · hc) (by decide)
    simpa only [cons_append, hskip] using ih
  | case5 inComment commented c rest hbreak hout q ih =>
    obtain rfl := Bool.eq_false_iff.2 hout
    exact ih.push fun s => uncommentedLines_quoted hbreak
  | case6 inComment commented c rest hbreak hout hquote ih =>
    obtain rfl := Bool.eq_false_iff.2 hout
    exact ih.push fun s => uncommentedLines_quote hquote
  | case7 inComment commented hout rest _ _ ih =>
    obtain rfl := Bool.eq_false_iff.2 hout
    exact ih
  | case8 inComment commented hout c rest hopen hbreak hquote ih =>
    obtain rfl := Bool.eq_false_iff.2 hout
    exact ih.push fun s => uncommentedLines_plain hbreak hquote fun hc =>
      head?_append_break (hopen · hc) (by decide)

theorem EndsOutsideComment.exists_lines {p} (h : EndsOutsideComment p) :
    ∃ lines, ∀ s, uncommentedLines false false none (p ++ '\n' :: s) =
      lines ++ uncommentedLines false false none s := by
  obtain ⟨isOpen, line, lines, hlines⟩ := startsAnew_uncommentedLines false false none p
  have hlast : uncommentedLines false false none (p ++ ['\n']) = _ := hlines []
  rw [EndsOutsideComment, hlast, uncommentedLines, getLast?_concat] at h
  obtain rfl : isOpen = false := by simpa using h
  exact ⟨line :: lines, hlines⟩

/-! ### A comment between blanks -/

def isShown : Bool × Text → Bool :=
  fun (commented, line) => !commented || !isBlankText line

theorem foldr_pushChar (w line : Text) (commented : Bool) (lines : List (Bool × Text)) :
    w.foldr pushChar ((commented, line) :: lines) = (commented, w ++ line) :: lines := by
  induction w with
  | nil => rfl
  | cons c w ih => rw [foldr_cons, ih]; rfl

section

variable {w : Text} (hw : ∀ c ∈ w, isBlank c ∧ c ≠ '\n')
include hw

theorem uncommentedLines_blanks (commented : Bool) (rest : Text) :
    uncommentedLines false commented none (w ++ rest) =
      w.foldr pushChar (uncommentedLines false commented none rest) := by
  induction w with
  | nil => rfl
  | cons c w ih =>
    obtain ⟨hblank, hbreak⟩ := hw c mem_cons_self
    have hquote : ¬ (c == '"' || c == '\'') := by
      rintro hc
      obtain rfl | rfl : c = '"' ∨ c = '\'' := by simpa using hc
      all_goals exact absurd hblank (by decide)
    have hopen : c ≠ '/' := by
      rintro rfl
      exact absurd hblank (by decide)
    rw [cons_append, uncommentedLines_plain hbreak hquote (absurd · hopen), foldr_cons,
      ih fun d hd => hw d (mem_cons_of_mem c hd)]

theorem isBlankText_of_blanks : isBlankText w :=
  all_eq_true.2 fun c hc => (hw c hc).1

end

/-- A comment leaves an empty line for each line break in it. -/
theorem uncommentedLines_comment {comment} (h : ¬ ['*', '/'] <:+: comment) (rest : Text) :
    uncommentedLines true true none (comment ++ '*' :: '/' :: rest) =
      List.replicate (comment.count '\n') (true, []) ++ uncommentedLines false true none rest := by
  induction comment with
  | nil => exact uncommentedLines_close
  | cons c comment ih =>
    specialize ih fun hinfix => h (infix_cons hinfix)
    by_cases hbreak : c = '\n'
    · subst hbreak
      simp [uncommentedLines, ih, replicate_succ]
    · have hclose : c = '*' → (comment ++ '*' :: '/' :: rest).head? ≠ some '/' := by
        rintro rfl hhead
        cases comment with
        | nil => simp at hhead
        | cons d comment =>
          obtain rfl : d = '/' := by simpa using hhead
          exact h (prefix_append ['*', '/'] comment).isInfix
      rw [cons_append, uncommentedLines_skip hbreak hclose, ih,
        count_cons_of_ne hbreak]

section

variable {margin comment tail : Text} (hmargin : ∀ c ∈ margin, isBlank c ∧ c ≠ '\n')
variable (hcomment : ¬ ['*', '/'] <:+: comment) (htail : ∀ c ∈ tail, isBlank c ∧ c ≠ '\n')
include hmargin hcomment htail

theorem filter_uncommentedLines (after : Text) :
    (uncommentedLines false false none (margin ++ '/' :: '*' ::
      (comment ++ '*' :: '/' :: (tail ++ '\n' :: after)))).filter isShown =
      (uncommentedLines false false none after).filter isShown := by
  have hlast : uncommentedLines false true none (tail ++ '\n' :: after) =
      (true, tail) :: uncommentedLines false false none after := by
    rw [uncommentedLines_blanks htail]
    simp [uncommentedLines, foldr_pushChar]
  rw [uncommentedLines_blanks hmargin]
  simp only [uncommentedLines, uncommentedLines_comment hcomment, hlast]
  have hmargin := isBlankText_of_blanks hmargin
  have htail := isBlankText_of_blanks htail
  -- the margin stands before the first line break of the comment, or before its tail
  cases comment.count '\n' with
  | zero => simp_all [foldr_pushChar, isShown, isBlankText]
  | succ k => simp_all [replicate_succ, foldr_pushChar, isShown, isBlankText]

theorem stripComments_withComment {before} (hbefore : EndsOutsideComment before) (after : Text) :
    stripComments (withComment before margin comment tail after) =
      stripComments (before ++ '\n' :: after) := by
  obtain ⟨lines, hlines⟩ := hbefore.exists_lines
  have hshown (s : Text) : stripComments s =
      Text.unlines (((uncommentedLines false false none s).filter isShown).map (·.2)) := rfl
  rw [hshown, hshown, withComment, hlines, hlines, filter_append, filter_append,
    filter_uncommentedLines hmargin hcomment htail]

end

/-- A comment on lines of its own, between blanks, is invisible wherever no other comment is open:
the text without comments is the same, and so are the normalized text and its rules. What a module is
compiled to is the same with and without the comment in its flattened template. -/
theorem comment_invisible {before margin comment tail : Text} (hbefore : EndsOutsideComment before)
    (hmargin : ∀ c ∈ margin, isBlank c ∧ c ≠ '\n') (hcomment : ¬ ['*', '/'] <:+: comment)
    (htail : ∀ c ∈ tail, isBlank c ∧ c ≠ '\n') (after : Text) :
    let text := withComment before margin comment tail after
    let plain := before ++ '\n' :: after
    stripComments text = stripComments plain ∧
    (∀ root name, normalizeRoot text root name = normalizeRoot plain root name ∧
      (normalizeRoot text root name).bind (flattenRules · root) =
        (normalizeRoot plain root name).bind (flattenRules · root)) ∧
    ∀ (m m' : Module) (options : Options) (properties : List CustomProperty),
      m.rootSelector? options = m'.rootSelector? options →
      flattenTemplate m options.strictVariables = .ok ⟨text, properties⟩ →
      flattenTemplate m' options.strictVariables = .ok ⟨plain, properties⟩ →
      compileModule m options = compileModule m' options := by
  have hstrip := stripComments_withComment hmargin hcomment htail hbefore after
  have hnormalize (root : Option Text) (name : String) :
      normalizeRoot (withComment before margin comment tail after) root name =
        normalizeRoot (before ++ '\n' :: after) root name := by
    simp only [normalizeRoot, hstrip]
  refine ⟨hstrip, fun root name => ⟨hnormalize root name, by rw [hnormalize]⟩, ?_⟩
  intro m m' options properties hroot htext hplain
  simp only [compileModule, htext, hplain, hroot, bind, Except.bind, hnormalize]

/-- A comment over two lines, with a brace and a quote, in front of an interpolated selector. -/
theorem comment_invisible_two_lines :
    let module (first : Text) : Module := ⟨[("ROOT_CLASS", ⟨"card".toList, true⟩)],
      ⟨[first, "__b \x7b c: d; \x7d".toList], [.named "ROOT_CLASS"]⟩⟩
    let before := "color: red;".toList
    let comment := "a \x7b\n 'b".toList
    EndsOutsideComment before ∧ ¬ ['*', '/'] <:+: comment ∧
    stripComments (withComment before [' '] comment ['\t'] ['.']) =
      stripComments (before ++ ['\n', '.']) ∧
    compileModule (module (withComment before [' '] comment ['\t'] ['.'])) {} =
      compileModule (module (before ++ ['\n', '.'])) {} := by
  intro module before comment
  have hbefore : EndsOutsideComment before := by decide +kernel
  have hcomment : ¬ ['*', '/'] <:+: comment := by decide +kernel
  have hinvisible := @comment_invisible _ [' '] _ ['\t'] hbefore (by simp [isBlank]) hcomment
    (by simp [isBlank])
  refine ⟨hbefore, hcomment, (hinvisible ['.']).1, ?_⟩
  refine (hinvisible ".card__b \x7b c: d; \x7d".toList).2.2 _ _ {} [] rfl ?_ ?_
  · decide +kernel
  · decide +kernel

end Sveltify.Style
