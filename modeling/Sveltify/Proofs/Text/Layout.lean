import Sveltify.Proofs.Text.Lines
import Sveltify.Text.Layout

/-! Layout keeps the content of code. Shifting lines, dropping superfluous blank lines and indenting
change what stands before the first character of a line, and nothing else: the lines that are not
blank stay the same from there on, in their order. -/

namespace Sveltify.Text

open List

/-- A line from its first character that is no space or tab on, unless it is blank. -/
def content? (line : Text) : Option Text :=
  if isBlankText line then none else some (line.dropWhile isIndent)

def contentLines (s : Text) : List Text :=
  (pieces s).filterMap content?

variable {line : Text}

theorem content?_of_isBlankText (h : isBlankText line) : content? line = none := by
  rw [content?, if_pos h]

theorem isNone_content? (line : Text) : (content? line).isNone = isBlankText line := by
  unfold content?
  split <;> simp_all

/-! Texts and their lines. -/

theorem pieces_ne_nil (s : Text) : pieces s ≠ [] :=
  splitOn_ne_nil '\n' s

theorem pieces_append (s t : Text) : pieces (s ++ '\n' :: t) = pieces s ++ pieces t := by
  unfold pieces
  induction s with
  | nil => simp [splitOn]
  | cons c s ih =>
    rw [cons_append, splitOn, splitOn, ih]
    split
    · rfl
    · cases hs : splitOn '\n' s with
      | nil => exact absurd hs (splitOn_ne_nil '\n' s)
      | cons => rfl

theorem contentLines_append (s t : Text) :
    contentLines (s ++ '\n' :: t) = contentLines s ++ contentLines t := by
  rw [contentLines, pieces_append, filterMap_append]
  rfl

theorem contentLines_nil : contentLines [] = [] :=
  rfl

theorem contentLines_unlines {parts} (h : ∀ part ∈ parts, '\n' ∉ part) :
    contentLines (unlines parts) = parts.filterMap content? := by
  cases parts with
  | nil => rfl
  | cons part rest =>
    have hpieces : pieces (unlines (part :: rest)) = part :: rest := splitOn_joinWith (by simp) h
    rw [contentLines, hpieces]

theorem contentLines_of_isBlankText {s} (h : isBlankText s) : contentLines s = [] := by
  have hline : ∀ line ∈ pieces s, isBlankText line := by
    unfold pieces
    induction s with
    | nil => simp [splitOn, isBlankText]
    | cons c s ih =>
      obtain ⟨hc, hs⟩ : isBlank c ∧ isBlankText s := by simpa [isBlankText] using h
      have ih := ih hs
      unfold splitOn
      split
      · simpa [isBlankText] using ih
      · cases hs : splitOn '\n' s with
        | nil => exact absurd hs (splitOn_ne_nil '\n' s)
        | cons piece =>
          rw [hs] at ih
          intro line hmem
          rcases mem_cons.1 hmem with rfl | hmem
          · have := ih piece (by simp)
            simpa [isBlankText, hc] using this
          · exact ih line (mem_cons_of_mem _ hmem)
  rw [contentLines, filterMap_eq_nil_iff]
  exact fun line hmem => content?_of_isBlankText (hline line hmem)

/-! Lines. -/

theorem isBlank_of_isIndent {c} (h : isIndent c) : isBlank c := by
  rcases (by simpa [isIndent] using h : c = ' ' ∨ c = '\t') with rfl | rfl
  all_goals decide

theorem content?_append {lead} (hlead : ∀ c ∈ lead, isIndent c) (line : Text) :
    content? (lead ++ line) = content? line := by
  have hblank : isBlankText (lead ++ line) = isBlankText line := by
    simpa [isBlankText] using fun _ c hc => isBlank_of_isIndent (hlead c hc)
  rw [content?, hblank, dropWhile_append_of_pos hlead, content?]

theorem content?_drop {k} (h : k ≤ (line.takeWhile isIndent).length) :
    content? (line.drop k) = content? line := by
  have htake : line.take k <+: line.takeWhile isIndent :=
    prefix_of_prefix_length_le ( take_prefix k line) ( takeWhile_prefix _)
      ((length_take_le k line).trans h)
  rw [← content?_append (fun c hc => mem_takeWhile_imp (htake.subset hc)) (line.drop k),
    take_append_drop]

section Reindent

variable {strip : Nat} {lead : Text} (hlead : ∀ c ∈ lead, isIndent c)

include hlead

theorem content?_reindentLine (strip : Nat) (line : Text) :
    content? (reindentLine strip lead line) = content? line := by
  unfold reindentLine
  split
  · next h =>
    rw [content?_of_isBlankText h]
    rfl
  · rw [content?_append hlead, content?_drop (Nat.min_le_left _ _)]

/-- What a line was shifted by is taken back when it is shifted again. -/
theorem reindentLine_reindentLine (strip : Nat) (next line : Text) :
    reindentLine lead.length next (reindentLine strip lead line) = reindentLine strip next line := by
  have hblank : isBlankText (reindentLine strip lead line) = isBlankText line := by
    simp [← isNone_content?, content?_reindentLine hlead]
  by_cases hline : isBlankText line
  · rw [reindentLine, hblank, if_pos hline, reindentLine, if_pos hline]
  · rw [reindentLine, hblank, if_neg hline, reindentLine, if_neg hline, reindentLine, if_neg hline]
    simp [takeWhile_append_of_pos hlead]

theorem not_mem_reindentLine (h : '\n' ∉ line) : '\n' ∉ reindentLine strip lead line := by
  unfold reindentLine
  split
  · simp
  · rw [mem_append, not_or]
    exact ⟨fun hmem => absurd (hlead _ hmem) (by decide), fun hmem => h (mem_of_mem_drop hmem)⟩

end Reindent

theorem indentLine_eq (line : Text) : indentLine line = reindentLine 0 [' ', ' '] line := by
  simp [indentLine, reindentLine]

/-! Blank lines. -/

def isSolid (line : Text) : Bool :=
  !isBlankText line

@[simp] theorem isSolid_nil : isSolid [] = false :=
  rfl

/-- No blank line may stand between the last line that is left and what follows. -/
def isClosed (last : Option Text) (rest : List Text) : Bool :=
  last.all opensBlock || (rest.find? isSolid).any closesBlock

/-- What is left of lines: a blank line is dropped or emptied, and any other is kept. -/
inductive Tidied : Option Text → List Text → List Text → Prop
  | nil {last : Option Text} : Tidied last [] []
  | drop {last : Option Text} {line : Text} {rest out : List Text} : isSolid line = false →
    isClosed last rest → Tidied last rest out → Tidied last (line :: rest) out
  | keep {last : Option Text} {line : Text} {rest out : List Text} : isSolid line = false →
    isClosed last rest = false → Tidied (some []) rest out →
    Tidied last (line :: rest) ([] :: out)
  | solid {last : Option Text} {line : Text} {rest out : List Text} : isSolid line →
    Tidied (some line) rest out → Tidied last (line :: rest) (line :: out)

theorem tidyLines_solid (h : isSolid line) (last : Option Text) (rest : List Text) :
    tidyLines last (line :: rest) = line :: tidyLines (some line) rest := by
  rw [tidyLines, if_neg (by simpa [isSolid] using h)]

theorem tidyLines_blank (h : isSolid line = false) (last : Option Text) (rest : List Text) :
    tidyLines last (line :: rest) =
      if isClosed last rest then tidyLines last rest else [] :: tidyLines (some []) rest := by
  rw [tidyLines, if_pos (by simpa [isSolid] using h)]
  rfl

theorem tidied (last : Option Text) (lines : List Text) :
    Tidied last lines (tidyLines last lines) := by
  induction lines generalizing last with
  | nil => exact .nil
  | cons line rest ih =>
    cases hline : isSolid line with
    | true => exact tidyLines_solid hline last rest ▸ .solid hline (ih _)
    | false =>
      rw [tidyLines_blank hline]
      split
      · next hclosed => exact .drop hline hclosed (ih _)
      · next hclosed => exact .keep hline (by simpa using hclosed) (ih _)

theorem opensBlock_of_isBlankText (h : isBlankText line) : opensBlock line := by
  have htrim : trimEnd line = [] := by
    simpa [trimEnd_eq, isBlankText] using h
  simp [opensBlock, htrim]

namespace Tidied

variable {last : Option Text} {lines out : List Text}

section

variable (h : Tidied last lines out)

include h

theorem filter_eq : out.filter isSolid = lines.filter isSolid := by
  induction h with
  | nil => rfl
  | drop hblank _ _ ih => simpa [hblank] using ih
  | keep hblank _ _ ih => simpa [hblank] using ih
  | solid hsolid _ ih => simpa [hsolid] using ih

theorem find?_eq : out.find? isSolid = lines.find? isSolid := by
  rw [← head?_filter, h.filter_eq, head?_filter]

/-- Behind an opening line the first line that is left is not blank. -/
theorem head?_eq (hopens : last.all opensBlock) : out.head? = lines.find? isSolid := by
  induction h with
  | nil => rfl
  | drop hblank _ _ ih => simpa [hblank] using ih hopens
  | keep _ hclosed => simp [isClosed, hopens] at hclosed
  | solid hsolid => simp [hsolid]

theorem tidyLines_eq : tidyLines last out = out := by
  induction h with
  | nil => rfl
  | drop _ _ _ ih => exact ih
  | keep _ hclosed hrest ih =>
    rw [tidyLines_blank rfl, isClosed, hrest.find?_eq, ← isClosed, hclosed, ih]
    rfl
  | solid hsolid _ ih => rw [tidyLines_solid hsolid, ih]

/-- A blank line that is left stands behind a line that is neither blank nor opens a block, and not
before one that closes it. -/
theorem blank {before after : List Text}
    (hout : out = before ++ line :: after) (hblank : isBlankText line) :
    (∃ a, before.getLast?.or last = some a ∧ opensBlock a = false) ∧
      after.head?.any closesBlock = false := by
  induction h generalizing before with
  | nil => simp at hout
  | drop _ _ _ ih => exact ih hout
  | @keep last _ _ _ _ hclosed hrest ih =>
    cases before with
    | nil =>
      obtain ⟨rfl, rfl⟩ := List.cons.inj hout
      obtain ⟨hopens, hcloses⟩ := Bool.or_eq_false_iff.1 hclosed
      obtain ⟨a, rfl⟩ : ∃ a, last = some a := Option.ne_none_iff_exists'.1 fun hnone => by
        simp [hnone] at hopens
      exact ⟨⟨a, rfl, hopens⟩, by rw [hrest.head?_eq rfl, hcloses]⟩
    | cons x before =>
      obtain ⟨rfl, htail⟩ := List.cons.inj hout
      simpa [getLast?_cons] using ih htail
  | solid hsolid _ ih =>
    cases before with
    | nil =>
      obtain ⟨rfl, rfl⟩ := List.cons.inj hout
      simp [isSolid, hblank] at hsolid
    | cons =>
      obtain ⟨rfl, htail⟩ := List.cons.inj hout
      simpa [getLast?_cons] using ih htail

theorem mem (hmem : line ∈ out) : line = [] ∨ line ∈ lines := by
  induction h <;> grind

end

end Tidied

/-- Lines are gone through one behind the other. -/
theorem tidyLines_append (last : Option Text) (lines rest : List Text) :
    ∃ lines' last', tidyLines last (lines ++ rest) = lines' ++ tidyLines last' rest ∧
      lines'.filter isSolid = lines.filter isSolid := by
  induction lines generalizing last with
  | nil => exact ⟨[], last, rfl, rfl⟩
  | cons line _ ih =>
    rw [cons_append]
    cases hline : isSolid line with
    | true =>
      obtain ⟨lines', last', htidy, hsame⟩ := ih (some line)
      exact ⟨line :: lines', last', by rw [tidyLines_solid hline, htidy]; rfl, by
        simp [hline, hsame]⟩
    | false =>
      rw [tidyLines_blank hline]
      split
      · obtain ⟨lines', last', htidy, hsame⟩ := ih last
        exact ⟨lines', last', htidy, by simp [hline, hsame]⟩
      · obtain ⟨lines', last', htidy, hsame⟩ := ih (some [])
        exact ⟨[] :: lines', last', by rw [htidy]; rfl, by simp [hline, hsame]⟩

/-- Of the blank lines before a line one is left, or none where no blank line may stand. -/
theorem tidyLines_blanks {blanks b} (hblanks : ∀ c ∈ blanks, isBlankText c)
    (hb : isSolid b) (last : Option Text) (rest : List Text) :
    tidyLines last (blanks ++ b :: rest) =
      (if blanks.isEmpty || (last.all opensBlock || closesBlock b) then [] else [[]]) ++
        b :: tidyLines (some b) rest := by
  induction blanks generalizing last with
  | nil => exact tidyLines_solid hb last rest
  | cons c blanks ih =>
    obtain ⟨hc, hblanks⟩ := forall_mem_cons.1 hblanks
    have hfind : (blanks ++ b :: rest).find? isSolid = some b := by
      rw [find?_append, find?_cons_of_pos hb, find?_eq_none.2 ?_, Option.none_or]
      exact fun c hc => by simp [isSolid, hblanks c hc]
    rw [cons_append, tidyLines_blank (by simp [isSolid, hc]), isClosed, hfind,
      Option.any_some, ih hblanks, ih hblanks, show (some []).all opensBlock from rfl]
    cases last.all opensBlock || closesBlock b <;> simp

/-! Texts. -/

theorem not_mem_of_mem_pieces {s piece} (h : piece ∈ pieces s) : '\n' ∉ piece :=
  not_mem_of_mem_splitOn h

theorem pieces_unlines {parts} (hne : parts ≠ []) (h : ∀ part ∈ parts, '\n' ∉ part) :
    pieces (unlines parts) = parts :=
  splitOn_joinWith hne h

theorem pieces_tidyBlankLines (s : Text) : tidyLines none (pieces s) = [] ∨
    pieces (tidyBlankLines s) = tidyLines none (pieces s) := by
  refine or_iff_not_imp_left.2 fun hne => pieces_unlines hne fun part hmem => ?_
  obtain rfl | hmem := (tidied none (pieces s)).mem hmem
  · simp
  · exact not_mem_of_mem_pieces hmem

theorem filter_tidyBlankLines (s : Text) :
    (pieces (tidyBlankLines s)).filter isSolid = (pieces s).filter isSolid := by
  rw [← (tidied none (pieces s)).filter_eq]
  obtain hnone | hpieces := pieces_tidyBlankLines s
  · rw [tidyBlankLines, hnone]
    rfl
  · rw [hpieces]

/-- Blank lines are put in order. The other lines stay as they are. A blank line stands behind a line
that is neither blank nor opens a block, and not before one that closes a block. Where there were
blank lines and one may stand, there is one. -/
theorem tidyBlankLines_normal (s : Text) :
    (pieces (tidyBlankLines s)).filter isSolid = (pieces s).filter isSolid ∧
    (tidyBlankLines s ≠ [] → ∀ before line after,
      pieces (tidyBlankLines s) = before ++ line :: after → isBlankText line →
        (∃ a, before.getLast? = some a ∧ isSolid a ∧ opensBlock a = false) ∧
          after.head?.any closesBlock = false) ∧
    (∀ before a blanks b after, pieces s = before ++ a :: (blanks ++ b :: after) →
      isSolid a → isSolid b → (∀ c ∈ blanks, isBlankText c) →
        ∃ before' after', pieces (tidyBlankLines s) = before' ++ a ::
          ((if blanks.isEmpty || (opensBlock a || closesBlock b) then [] else [[]]) ++ b :: after') ∧
          before'.filter isSolid = before.filter isSolid ∧
          after'.filter isSolid = after.filter isSolid) ∧
    tidyBlankLines (tidyBlankLines s) = tidyBlankLines s := by
  have htidied := tidied none (pieces s)
  refine ⟨filter_tidyBlankLines s, ?_⟩
  obtain hnone | hpieces := pieces_tidyBlankLines s
  · have hempty : tidyBlankLines s = [] := by rw [tidyBlankLines, hnone, unlines, joinWith]
    refine ⟨fun hne => absurd hempty hne, fun before a blanks b after hs ha => ?_, by
      rw [hempty]; rfl⟩
    have hsolid := htidied.filter_eq
    rw [hnone, hs] at hsolid
    simp [ha] at hsolid
  · rw [hpieces]
    refine ⟨fun _ before line after hout hblank => ?_, fun before a blanks b after hs ha hb hblanks => ?_, ?_⟩
    · obtain ⟨⟨a, hlast, hopens⟩, hcloses⟩ := htidied.blank hout hblank
      refine ⟨⟨a, by simpa using hlast, ?_, hopens⟩, hcloses⟩
      simpa [isSolid] using mt opensBlock_of_isBlankText (by simp [hopens])
    · obtain ⟨before', _, htidy, hsame⟩ := tidyLines_append none before (a :: (blanks ++ b :: after))
      rw [hs, htidy, tidyLines_solid ha, tidyLines_blanks hblanks hb]
      exact ⟨before', _, rfl, hsame, (tidied _ after).filter_eq⟩
    · rw [tidyBlankLines, hpieces, htidied.tidyLines_eq]
      rfl

theorem filterMap_content? (lines : List Text) :
    lines.filterMap content? = (lines.filter isSolid).map (·.dropWhile isIndent) := by
  induction lines with
  | nil => rfl
  | cons line _ ih => cases h : isBlankText line <;> simp [content?, isSolid, h, ih]

theorem contentLines_tidyBlankLines (s : Text) :
    contentLines (tidyBlankLines s) = contentLines s := by
  rw [contentLines, filterMap_content?, filter_tidyBlankLines, ← filterMap_content?]
  rfl

theorem reindent_of_pieces {s first rest} (h : pieces s = first :: rest)
    (strip : Nat) (lead : Text) :
    reindent s strip lead = unlines (first :: rest.map (reindentLine strip lead)) := by
  rw [reindent, h]

theorem pieces_reindent {lead} (hlead : ∀ c ∈ lead, isIndent c) (s : Text) (strip : Nat) :
    ∃ first rest, pieces s = first :: rest ∧
      pieces (reindent s strip lead) = first :: rest.map (reindentLine strip lead) := by
  obtain ⟨first, rest, hs⟩ := exists_cons_of_ne_nil (pieces_ne_nil s)
  have hpieces : ∀ piece ∈ first :: rest, '\n' ∉ piece := fun piece hmem =>
    not_mem_of_mem_pieces (hs ▸ hmem)
  refine ⟨first, rest, hs, ?_⟩
  rw [reindent_of_pieces hs, pieces_unlines (cons_ne_nil _ _)]
  refine forall_mem_cons.2 ⟨hpieces first mem_cons_self, forall_mem_map.2 ?_⟩
  exact fun line hline => not_mem_reindentLine hlead (hpieces line (mem_cons_of_mem _ hline))

theorem map_content?_reindent {lead} (hlead : ∀ c ∈ lead, isIndent c) (s : Text)
    (strip : Nat) : (pieces (reindent s strip lead)).map content? = (pieces s).map content? := by
  obtain ⟨_, _, hs, hpieces⟩ := pieces_reindent hlead s strip
  simp [hs, hpieces, content?_reindentLine hlead]

/-- Shifting a shifted text is shifting it once. A text that is shifted by spaces and tabs keeps its
first line and what stands in its other lines. -/
theorem reindent_composes (t : Text) (strip : Nat) (lead next : Text)
    (hlead : ∀ c ∈ lead, isIndent c) :
    reindent (reindent t strip lead) lead.length next = reindent t strip next ∧
    (pieces (reindent t strip lead)).length = (pieces t).length ∧
    (pieces (reindent t strip lead)).head? = (pieces t).head? ∧
    (pieces (reindent t strip lead)).map content? = (pieces t).map content? := by
  obtain ⟨_, _, ht, hpieces⟩ := pieces_reindent hlead t strip
  refine ⟨?_, by simp [ht, hpieces], by simp [ht, hpieces], map_content?_reindent hlead t strip⟩
  rw [reindent_of_pieces hpieces, reindent_of_pieces ht]
  simp [Function.comp_def, reindentLine_reindentLine hlead]

/-- The second line has less in front of it than is taken off, and the last one more. -/
theorem reindent_composes_margins : (∀ c ∈ ['\t', ' '], isIndent c) ∧
    reindent (reindent "(\n a\n\n   b".toList 2 ['\t', ' ']) 2 ['>'] = "(\n>a\n\n> b".toList :=
  have hlead : ∀ c ∈ ['\t', ' '], isIndent c := by simp [isIndent]
  ⟨hlead, (reindent_composes _ 2 _ ['>'] hlead).1.trans (by decide +kernel)⟩

theorem contentLines_reindent (s : Text) (strip : Nat) :
    contentLines (reindent s strip []) = contentLines s := by
  have h := map_content?_reindent (forall_mem_nil _) s strip
  simpa [contentLines] using congrArg (·.filterMap id) h

theorem contentLines_indent (s : Text) : contentLines (indent s) = contentLines s := by
  have hlead : ∀ c ∈ [' ', ' '], isIndent c := by simp [isIndent]
  have hlines : ∀ line ∈ (pieces s).map indentLine, '\n' ∉ line := by
    intro _ hmem
    obtain ⟨piece, hpiece, rfl⟩ := mem_map.1 hmem
    exact indentLine_eq piece ▸ not_mem_reindentLine hlead (not_mem_of_mem_pieces hpiece)
  simp only [indent, contentLines_unlines hlines, filterMap_map, Function.comp_def,
    indentLine_eq, content?_reindentLine hlead]
  rfl

example : indent "`a\nb`".toList = "  `a\n  b`".toList := by decide +kernel

end Sveltify.Text
