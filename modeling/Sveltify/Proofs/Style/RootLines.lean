import Sveltify.Proofs.Style.RootGroup

/-! Normalization keeps the lines of a template. Up to blanks, the lines of the result are those of
the text without comments; all that is added are the first and the last line of the root rule, and
the group that stands between them never closes more braces than it has opened. -/

namespace Sveltify.Style

open List
open Text (isBlankText trim lines unlines dropEndWhile)

/-- The lines that are not blank, without the blanks around them. -/
def trimmedLines (all : List Text) : List Text :=
  (all.map trim).filter (!·.isEmpty)

/-- Lines with the first line of the root rule in front of them and its last one after some of them,
before which none closes more braces than are open. -/
def Wrapped (selector : Text) (kept out : List Text) : Prop :=
  ∃ k, 0 < k ∧ k ≤ kept.length ∧
    out = trim (selector ++ [' ', '\x7b']) :: kept.take k ++ ['\x7d'] :: kept.drop k ∧
    ∀ j ≤ k, (kept.take j).flatten.count '\x7d' ≤ (kept.take j).flatten.count '\x7b'

variable {all : List Text}

theorem trimmedLines_cons_blank {line} (h : isBlankText line) (all : List Text) :
    trimmedLines (line :: all) = trimmedLines all := by
  simp [trimmedLines, (isBlankText_iff line).1 h]

theorem trimmedLines_cons {line} (h : ¬ isBlankText line) (all : List Text) :
    trimmedLines (line :: all) = trim line :: trimmedLines all := by
  have hne : trim line ≠ [] := mt (isBlankText_iff line).2 h
  simp [trimmedLines, hne]

theorem trimmedLines_append (a b : List Text) :
    trimmedLines (a ++ b) = trimmedLines a ++ trimmedLines b := by
  simp [trimmedLines]

theorem trimmedLines_blanks (h : ∀ line ∈ all, isBlankText line) : trimmedLines all = [] := by
  induction all with
  | nil => rfl
  | cons _ _ ih =>
    obtain ⟨hline, hall⟩ := forall_mem_cons.1 h
    rw [trimmedLines_cons_blank hline, ih hall]

theorem trimmedLines_dropWhile (all : List Text) :
    trimmedLines (all.dropWhile isBlankText) = trimmedLines all := by
  conv_rhs => rw [← takeWhile_append_dropWhile (p := isBlankText) (l := all)]
  rw [trimmedLines_append, trimmedLines_blanks fun line hline => mem_takeWhile_imp hline,
    nil_append]

theorem trimmedLines_dropEndWhile (all : List Text) :
    trimmedLines (dropEndWhile isBlankText all) = trimmedLines all := by
  rw [Text.dropEndWhile_eq_rdropWhile]
  conv_rhs => rw [← rdropWhile_append_rtakeWhile (p := isBlankText) (l := all)]
  rw [trimmedLines_append, trimmedLines_blanks fun line hline => mem_rtakeWhile_imp hline,
    append_nil]

/-- No line is lost between the group and the lines after it, and no line of the group closes more
braces than are open: the depth is never less than what is taken from it. -/
theorem trimmedLines_splitGroup (depth : Nat) (all : List Text) :
    trimmedLines (splitGroup depth all).1 ++ trimmedLines (splitGroup depth all).2 =
        trimmedLines all ∧
      ∀ j, ((trimmedLines (splitGroup depth all).1).take j).flatten.count '\x7d' ≤
        depth + ((trimmedLines (splitGroup depth all).1).take j).flatten.count '\x7b' := by
  induction all generalizing depth with
  | nil => simp [splitGroup, trimmedLines]
  | cons line _ ih =>
    rw [splitGroup]
    split
    · next hblank =>
      split
      · exact ⟨rfl, by simp [trimmedLines]⟩
      · rw [trimmedLines_cons_blank hblank]
        exact ih depth
    · next hblank =>
      dsimp only
      split
      · exact ⟨rfl, by simp [trimmedLines]⟩
      next hcloses =>
      obtain ⟨hlines, hdepth⟩ := ih (depth + line.count '\x7b' - line.count '\x7d')
      have hindented : ¬ isBlankText (' ' :: ' ' :: line) := by
        rwa [isBlankText_iff, ← isBlankText_iff]
      rw [trimmedLines_cons hindented, trim_indented, trimmedLines_cons hblank]
      refine ⟨congrArg (trim line :: ·) hlines, fun j => ?_⟩
      cases j with
      | zero => simp
      | succ j =>
        have hopen := Token.count_trim (c := '\x7b') (by decide) line
        have hclose := Token.count_trim (c := '\x7d') (by decide) line
        have hrest := hdepth j
        rw [take_succ_cons, flatten_cons, count_append, count_append]
        omega

theorem lines_normalized (honeLine : ∀ line ∈ all, '\n' ∉ line)
    (hhead : ∀ line ∈ all.head?, ¬ isBlankText line) :
    let out := unlines (dropEndWhile isBlankText all)
    trimmedLines (lines out) = trimmedLines all ∧
      ((lines out).map trim).head? ≠ some [] ∧ ((lines out).map trim).getLast? ≠ some [] := by
  obtain ⟨_, hrest⟩ := rdropWhile_prefix isBlankText all
  have htrim := trimmedLines_dropEndWhile all
  rw [Text.dropEndWhile_eq_rdropWhile] at htrim ⊢
  have hfirst : ∀ line ∈ (all.rdropWhile isBlankText).head?, trim line ≠ [] := by
    intro line hline
    refine mt (isBlankText_iff line).2 (hhead line ?_)
    rw [← hrest, head?_append, hline]
    rfl
  have hlast : ∀ line ∈ (all.rdropWhile isBlankText).getLast?, trim line ≠ [] := by
    intro line hline
    have hne : all.rdropWhile isBlankText ≠ [] := fun hnil => by simp [hnil] at hline
    rw [getLast?_eq_some_getLast hne] at hline
    obtain rfl := Option.some.inj hline
    exact mt (isBlankText_iff _).2 (rdropWhile_last_not _ _ hne)
  have hmap : (lines (unlines (all.rdropWhile isBlankText))).map trim =
      (all.rdropWhile isBlankText).map trim := by
    refine Text.map_trim_lines_unlines (fun line hline => honeLine line ?_) fun hnil => ?_
    · rw [← hrest]
      exact mem_append_left _ hline
    · exact hlast [] hnil rfl
  dsimp only
  rw [trimmedLines, hmap]
  simpa using ⟨htrim, hfirst, hlast⟩

theorem trimmedLines_splitGroup_pos {first} (hfirst : ¬ isBlankText first)
    (hbare : isBareDeclaration first) (rest : List Text) :
    0 < (trimmedLines (splitGroup 0 (first :: rest)).1).length := by
  have hcloses : first.count '\x7d' = 0 := by
    rw [count_eq_zero]
    simp_all [isBareDeclaration]
  have hindented : ¬ isBlankText (' ' :: ' ' :: first) := by
    rwa [isBlankText_iff, ← isBlankText_iff]
  rw [splitGroup, if_neg hfirst]
  simp [hcloses, trimmedLines_cons hindented]

theorem lines_wrapped {selector first rest group others}
    (hselector : '\n' ∉ selector) (honeLine : ∀ line ∈ first :: rest, '\n' ∉ line)
    (hfirst : ¬ isBlankText first) (hbare : isBareDeclaration first)
    (hgroup : splitGroup 0 (first :: rest) = (group, others)) :
    let out := unlines (dropEndWhile isBlankText
      ((selector ++ [' ', '\x7b']) :: group ++ ['\x7d'] :: others))
    Wrapped selector (trimmedLines (first :: rest)) (trimmedLines (lines out)) ∧
    ((lines out).map trim).head? ≠ some [] ∧ ((lines out).map trim).getLast? ≠ some [] := by
  obtain ⟨hkept, hdepth⟩ := trimmedLines_splitGroup 0 (first :: rest)
  have hpos := trimmedLines_splitGroup_pos hfirst hbare rest
  have hsplit := splitGroup_oneLine 0 honeLine
  rw [hgroup] at hkept hdepth hpos hsplit
  have hopen : ¬ isBlankText (selector ++ [' ', '\x7b']) := by
    rw [isBlankText, all_append]
    exact fun h => absurd (Bool.and_eq_true_iff.1 h).2 (by decide)
  have hwrapped : ∀ line ∈ (selector ++ [' ', '\x7b']) :: group ++ ['\x7d'] :: others,
      '\n' ∉ line := by
    simp only [cons_append, forall_mem_cons, forall_mem_append] at hsplit ⊢
    exact ⟨by simpa using hselector, hsplit.1, by decide, hsplit.2⟩
  obtain ⟨hlines, hends⟩ := lines_normalized hwrapped (by simpa using hopen)
  refine ⟨⟨(trimmedLines group).length, hpos, by simp [← hkept], ?_, fun j hj => ?_⟩, hends⟩
  · rw [hlines, trimmedLines_append, trimmedLines_cons hopen, ← hkept, take_left, drop_left]
    rfl
  · rw [← hkept, take_append_of_le_length hj]
    simpa using hdepth j

/-- Normalization fails only for a first line that is a bare declaration, without a root selector to
put it under. Otherwise it keeps every line: a first line that is a bare declaration gets the first
line of the root rule in front of it and some of the lines below it, and its last line after them;
nothing else is added, and no blank line is left at the start or the end. Within the rule no line
closes more braces than are open, so the depth that is counted there never falls below zero. -/
theorem normalizeRoot_keeps_lines (s : Text) {root : Option Text} (name : String)
    (hroot : ∀ selector ∈ root, '\n' ∉ selector) :
    let kept := trimmedLines (lines (stripComments s))
    let bare := (fromFirstLine (stripComments s)).head?.any isBareDeclaration
    (∀ e, normalizeRoot s root name = .error e ↔
      e = .missingRootClass name ∧ bare ∧ root = none) ∧
    ∀ out, normalizeRoot s root name = .ok out →
      (bare = false → trimmedLines (lines out) = kept) ∧
      (bare → ∃ selector ∈ root, Wrapped selector kept (trimmedLines (lines out))) ∧
      ((lines out).map trim).head? ≠ some [] ∧ ((lines out).map trim).getLast? ≠ some [] := by
  have hkept : trimmedLines (dedented (stripComments s)) =
      trimmedLines (lines (stripComments s)) := by
    rw [trimmedLines, map_trim_dedented]
    exact trimmedLines_dropWhile _
  have honeLine := dedented_oneLine (stripComments s)
  have hhead : ∀ line ∈ (dedented (stripComments s)).head?, ¬ isBlankText line := by
    intro _ hline
    have hnot := List.head?_dropWhile_not isBlankText
      (dedentLines (lines (dropFirstBreak (stripComments s))))
    rw [← dedented, hline] at hnot
    simpa using hnot
  rw [← hkept, ← isBareDeclaration_dedented, normalizeRoot, wrapRoot, ← dedented]
  cases hlines : dedented (stripComments s) with
  | nil =>
    rw [hlines] at honeLine hhead
    simpa [Except.map] using lines_normalized honeLine hhead
  | cons first rest =>
    rw [hlines] at honeLine hhead
    by_cases hbare : isBareDeclaration first
    · cases root with
      | none => simpa [hbare, Except.map] using fun e => eq_comm
      | some selector =>
        rcases hgroup : splitGroup 0 (first :: rest) with ⟨_, _⟩
        have hout := lines_wrapped (hroot selector rfl) honeLine (hhead first rfl) hbare hgroup
        simpa [hbare, hgroup, Except.map] using hout
    · simpa [hbare, Except.map] using lines_normalized honeLine hhead

/-- A group with a comment, and with a blank line inside of a rule. -/
theorem normalizeRoot_keeps_lines_group :
    let root := ".r".toList
    let s := "\n  a: b;\n  /* c */\n  d \x7b\n\n    e: f; \x7d\n\n  g \x7b\x7d".toList
    let out := ".r \x7b\n  a: b;\n  d \x7b\n\n    e: f; \x7d\n\x7d\n\ng \x7b\x7d".toList
    '\n' ∉ root ∧ normalizeRoot s (some root) "ROOT_CLASS" = .ok out ∧
      ∃ selector ∈ some root,
        Wrapped selector (trimmedLines (lines (stripComments s))) (trimmedLines (lines out)) := by
  intro root s out
  have hroot : '\n' ∉ root := by decide +kernel
  have hout : normalizeRoot s (some root) "ROOT_CLASS" = .ok out := by decide +kernel
  refine ⟨hroot, hout, ((normalizeRoot_keeps_lines s "ROOT_CLASS" ?_).2 out hout).2.1 ?_⟩
  · simpa using hroot
  · decide +kernel

end Sveltify.Style
