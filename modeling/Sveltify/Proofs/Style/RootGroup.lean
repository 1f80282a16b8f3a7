import Sveltify.Proofs.Style.Depth
import Sveltify.Style.Root

/-! The group of lines that a template's bare declarations lead. Normalization finds its end by
counting the braces of each line, the tokenizer nests rules by the braces at top level. Where
quotes, parentheses and brackets hide as many opening braces as closing ones the two agree, and
exactly the rules of the group are nested under the root selector. -/

namespace Sveltify.Style

open List hiding dropPrefix?
open Text Scanner Token

def Scanner.hiddenCount (p : Char → Bool) (s : Scanner) : Text → Nat
  | [] => 0
  | c :: rest => (p c && !s.atTop).toNat + hiddenCount p (s.advance c) rest

/-- A line whose quotes, parentheses and brackets hide as many opening braces as closing ones. -/
def Token.hidesEvenly (line : Text) : Bool :=
  hiddenCount (· == '\x7b') {} line == hiddenCount (· == '\x7d') {} line

/-- The lines up to the first blank one that has no rule open at top level, and those from it on;
`before` are the lines that come before. -/
def leadingGroup (before : List Text) : List Text → List Text × List Text
  | [] => ([], [])
  | line :: rest =>
    if isBlankText line && braceDepth before == some 0 then ([], line :: rest)
    else
      let (group, others) := leadingGroup (before ++ [line]) rest
      (line :: group, others)

/-! ### Hidden braces -/

namespace Scanner

theorem hiddenCount_append (p : Char → Bool) (s : Scanner) (a b : Text) :
    s.hiddenCount p (a ++ b) = s.hiddenCount p a + (s.run a).hiddenCount p b := by
  induction a generalizing s with
  | nil => simp [hiddenCount]
  | cons c a ih =>
    rw [cons_append, hiddenCount, hiddenCount, ih, run_cons]
    omega

theorem hiddenCount_of_hides {p t} {s : Scanner} (h : s.hides p t) :
    s.hiddenCount p t = t.countP p := by
  induction t generalizing s with
  | nil => rfl
  | cons c t ih =>
    obtain ⟨hc, ht⟩ : (!(p c && s.atTop)) ∧ (s.advance c).hides p t := by
      simpa [hides] using h
    rw [hiddenCount, ih ht, countP_cons]
    cases hp : p c with
    | false => simp
    | true =>
      have htop : s.atTop = false := by simpa [hp] using hc
      simp [htop]
      omega

end Scanner

variable (line : Text) {before : List Text}

namespace Token

def braceChar (opens : Bool) : Char :=
  if opens then '\x7b' else '\x7d'

theorem filterMap_brace_declarations (t : Text) : (declarations t).filterMap brace? = [] := by
  simp [declarations, brace?]

theorem count_brace_ofText (opens : Bool) (t : Text) :
    ((ofText t).filterMap brace?).count opens +
      hiddenCount (· == braceChar opens) {} t = t.count (braceChar opens) := by
  have hmono : ∀ c, (c == braceChar opens) → isBrace c := by
    intro c hc
    obtain rfl : c = braceChar opens := by simpa using hc
    cases opens <;> decide
  have hadvance : ∀ c : Char, isBrace c → advance {} c = {} := by
    intro c hc
    have hbrace : c = '\x7b' ∨ c = '\x7d' := by simpa [isBrace] using hc
    rcases hbrace with rfl | rfl <;> decide
  induction t using braces_induction with
  | hides t ht =>
    rw [ofText_of_hides ht, filterMap_brace_declarations,
      hiddenCount_of_hides (hides_mono hmono ht)]
    simp [List.count]
  | opens a b ha hrun ih =>
    have hhidden := hiddenCount_of_hides (hides_mono hmono ha)
    rw [ofText_open b ha hrun, hiddenCount_append, hhidden, hrun, hiddenCount,
      hadvance _ rfl, count_append, count_cons, ← ih]
    cases opens <;> simp [brace?, braceChar, List.count] <;> omega
  | closes a b ha hrun ih =>
    have hhidden := hiddenCount_of_hides (hides_mono hmono ha)
    rw [ofText_close b ha hrun, hiddenCount_append, hhidden, hrun, hiddenCount,
      hadvance _ rfl, count_append, count_cons, ← ih, filterMap_append,
      filterMap_brace_declarations]
    cases opens <;> simp [brace?, braceChar, List.count] <;> omega

theorem filterMap_brace_splitLine :
    (splitLine line).filterMap brace? = (ofText (trim line)).filterMap brace? := by
  unfold splitLine
  split
  · next hempty =>
    rw [List.isEmpty_iff.mp hempty]
    rfl
  · rfl

/-- A line that hides braces evenly changes the depth by the braces that it has. -/
theorem depthAfter_splitLine {depth e line} (htrim : trim line = line)
    (heven : hidesEvenly line) (h : depthAfter depth (splitLine line) = some e) :
    e + line.count '\x7d' = depth + line.count '\x7b' := by
  have hdepth := depthAfter_eq_some h
  rw [filterMap_brace_splitLine, htrim] at hdepth
  have hopen := count_brace_ofText true line
  have hclose := count_brace_ofText false line
  have hhidden : hiddenCount (· == '\x7b') {} line =
      hiddenCount (· == '\x7d') {} line := by simpa [hidesEvenly] using heven
  simp only [braceChar, if_true, Bool.false_eq_true, if_false] at hopen hclose
  omega

/-! ### The depth line by line -/

theorem count_trim {c} (hc : isBlank c = false) (line : Text) :
    (trim line).count c = line.count c := by
  refine countP_trim (fun d hd => ?_) line
  rw [beq_eq_false_iff_ne]
  rintro rfl
  rw [hc] at hd
  cases hd

theorem braceDepth_append (before lines : List Text) :
    braceDepth (before ++ lines) = (braceDepth before).bind fun depth =>
      depthAfter depth ((wholeLines (heldAfter [] before) lines).flatMap splitLine) := by
  rw [braceDepth, wholeLines_append, flatMap_append, depthAfter_append]
  rfl

theorem braceDepth_isSome_of_append {lines} (h : (braceDepth (before ++ lines)).isSome) :
    (braceDepth before).isSome := by
  rw [braceDepth_append] at h
  cases hbefore : braceDepth before with
  | none => simp [hbefore] at h
  | some => rfl

theorem heldAfter_append (pending a b : List Text) :
    heldAfter pending (a ++ b) = heldAfter (heldAfter pending a) b := by
  induction a generalizing pending with
  | nil => rfl
  | cons _ a ih =>
    simp only [cons_append, heldAfter]
    split
    · exact ih _
    · exact ih []

theorem heldAfter_continues {pending}
    (hpending : ∀ line ∈ pending, continues line) (lines : List Text) :
    ∀ line ∈ heldAfter pending lines, continues line := by
  induction lines generalizing pending with
  | nil => exact hpending
  | cons raw _ ih =>
    rw [heldAfter]
    split
    · next hcontinues =>
      refine ih fun line hline => ?_
      rcases mem_append.mp hline with hline | hline
      · exact hpending line hline
      · obtain rfl : line = trim raw := by simpa using hline
        exact hcontinues
    · exact ih (by simp)

/-- Lines that go on have no braces, so a line joined with them has those of its last part. -/
theorem count_wholeLine {pending} (hpending : ∀ line ∈ pending, continues line)
    {raw} (hraw : continues (trim raw) = false) :
    ∃ line, (∀ rest, wholeLines pending (raw :: rest) = line :: wholeLines [] rest) ∧
      line.count '\x7b' = raw.count '\x7b' ∧ line.count '\x7d' = raw.count '\x7d' := by
  have hnone : ∀ {c : Char}, (∀ line ∈ pending, c ∉ line) → c ≠ ' ' →
      (joinWith [' '] pending).count c = 0 := by
    intro c hline hspace
    rw [count_eq_zero]
    intro hc
    rcases mem_joinWith hc with hc | ⟨line, hmem, hc⟩
    · exact hspace (by simpa using hc)
    · exact hline line hmem hc
  by_cases halone : (pending.isEmpty || (trim raw).isEmpty ||
      (trim raw).head? == some '\x7d')
  · refine ⟨trim raw, fun rest => ?_, count_trim (by decide) raw, count_trim (by decide) raw⟩
    simp [wholeLines, hraw, halone]
  · refine ⟨joinWith [' '] pending ++ ' ' :: trim raw, fun rest => ?_, ?_, ?_⟩
    · simp only [wholeLines, hraw, Bool.false_eq_true, if_false, if_neg halone]
    · rw [count_append, hnone (fun line hline => ((continues_iff line).mp
        (hpending line hline)).2.1) (by decide), count_cons_of_ne (by decide),
        count_trim (by decide) raw, Nat.zero_add]
    · rw [count_append, hnone (fun line hline => ((continues_iff line).mp
        (hpending line hline)).2.2) (by decide), count_cons_of_ne (by decide),
        count_trim (by decide) raw, Nat.zero_add]

theorem braceDepth_concat {raw depth e}
    (hfeed : ∀ line ∈ before ++ [raw], '\n' ∉ line) (hbefore : braceDepth before = some depth)
    (hafter : braceDepth (before ++ [raw]) = some e)
    (heven : ∀ line ∈ wholeLines (heldAfter [] before) [raw], hidesEvenly line) :
    e + raw.count '\x7d' = depth + raw.count '\x7b' := by
  have hstep := braceDepth_append before [raw]
  rw [hafter, hbefore] at hstep
  by_cases hcontinues : continues (trim raw)
  · obtain ⟨-, hopen, hclose⟩ := (continues_iff _).mp hcontinues
    have hzero : ∀ {c : Char}, isBlank c = false → c ∉ trim raw → raw.count c = 0 := by
      intro c hc hmem
      rw [← count_trim hc, count_eq_zero]
      exact hmem
    rw [hzero (by decide) hopen, hzero (by decide) hclose]
    simp [wholeLines, hcontinues, depthAfter] at hstep
    omega
  · have hheld : ∀ line ∈ heldAfter [] before, continues line :=
      heldAfter_continues (by simp) before
    obtain ⟨line, hwhole, _, _⟩ := count_wholeLine hheld (by simpa using hcontinues)
    have hmem : line ∈ wholeLines [] (before ++ [raw]) := by
      rw [wholeLines_append, hwhole]
      simp
    obtain ⟨htrim, -, -⟩ := wholeLines_spec (by simp) hfeed hmem
    rw [hwhole []] at hstep heven
    have hafter : depthAfter depth (splitLine line) = some e := by
      simpa [wholeLines] using hstep.symm
    have hline := depthAfter_splitLine htrim (heven line (by simp)) hafter
    omega

end Token

/-! ### Where the group ends -/

theorem isBlankText_iff : isBlankText line = true ↔ trim line = [] := by
  constructor
  · intro h
    have hblanks : ∀ c ∈ line, isBlank c := by simpa [isBlankText] using h
    simpa using trim_append_blanks [] hblanks
  · intro h
    obtain ⟨_, _, hline, hbefore, hafter⟩ := exists_trim line
    rw [h, append_nil] at hline
    rw [hline, isBlankText, all_eq_true]
    intro c hc
    rcases mem_append.mp hc with hc | hc
    · exact hbefore c hc
    · exact hafter c hc

theorem isBlankText_trim : isBlankText (trim line) = isBlankText line := by
  rw [Bool.eq_iff_iff, isBlankText_iff, isBlankText_iff, trim_trim]

theorem trim_indented : trim (' ' :: ' ' :: line) = trim line := by
  rw [trim_blank_cons (by decide), trim_blank_cons (by decide)]

theorem splitGroup_map_trim (depth : Nat) (lines : List Text) :
    (splitGroup depth (lines.map trim)).1.map trim =
        (splitGroup depth lines).1.map trim ∧
      (splitGroup depth (lines.map trim)).2.map trim =
        (splitGroup depth lines).2.map trim := by
  induction lines generalizing depth with
  | nil => exact ⟨rfl, rfl⟩
  | cons line _ ih =>
    simp only [map_cons, splitGroup, isBlankText_trim,
      count_trim (c := '\x7b') (by decide), count_trim (c := '\x7d') (by decide)]
    split
    · split
      · simp
      · exact ⟨congrArg ([] :: ·) (ih depth).1, (ih depth).2⟩
    · split
      · simp
      · obtain ⟨hgroup, hothers⟩ := ih (depth + line.count '\x7b' - line.count '\x7d')
        refine ⟨?_, hothers⟩
        simp [trim_indented, hgroup]

variable {lines : List Text}

theorem splitGroup_oneLine (depth : Nat) (h : ∀ line ∈ lines, '\n' ∉ line) :
    ∀ line ∈ (splitGroup depth lines).1 ++ (splitGroup depth lines).2, '\n' ∉ line := by
  induction lines generalizing depth with
  | nil => simp [splitGroup]
  | cons _ _ ih =>
    obtain ⟨hline, hrest⟩ := forall_mem_cons.mp h
    simp only [splitGroup]
    split
    · split
      · exact h
      · exact forall_mem_cons.mpr ⟨by simp, ih depth hrest⟩
    · split
      · exact h
      · exact forall_mem_cons.mpr ⟨by simpa using hline, ih _ hrest⟩

theorem leadingGroup_append (before lines : List Text) :
    (leadingGroup before lines).1 ++ (leadingGroup before lines).2 = lines := by
  induction lines generalizing before with
  | nil => rfl
  | cons line _ ih =>
    rw [leadingGroup]
    split
    · rfl
    · simpa using ih (before ++ [line])

/-- The group ends outside of all rules, and a blank line follows it. -/
theorem leadingGroup_ends (before : List Text) (h : braceDepth (before ++ lines) = some 0) :
    braceDepth (before ++ (leadingGroup before lines).1) = some 0 ∧
      ((leadingGroup before lines).2 = [] ∨
        ∃ blank rest, trim blank = [] ∧ (leadingGroup before lines).2 = blank :: rest) := by
  induction lines generalizing before with
  | nil => exact ⟨h, .inl rfl⟩
  | cons line rest ih =>
    rw [leadingGroup]
    split
    · next hends =>
      obtain ⟨hblank, hdepth⟩ : isBlankText line ∧
          braceDepth before = some 0 := by
        simpa using hends
      exact ⟨by simpa using hdepth, .inr ⟨line, rest, (isBlankText_iff line).mp hblank, rfl⟩⟩
    · have hrest := ih (before ++ [line]) (by simpa using h)
      simpa using hrest

/-- Counting every brace of a line finds the end of the group, where the lines hide braces evenly:
along the group the count is the depth at top level. -/
theorem splitGroup_eq (lines : List Text) {depth}
    (hfeed : ∀ line ∈ before ++ lines, '\n' ∉ line) (hdepth : braceDepth before = some depth)
    (hsome : (braceDepth (before ++ lines)).isSome)
    (heven : ∀ line ∈ wholeLines (heldAfter [] before) (leadingGroup before lines).1, hidesEvenly
    line) :
    (splitGroup depth lines).1.map trim = (leadingGroup before lines).1.map trim ∧
      (splitGroup depth lines).2 = (leadingGroup before lines).2 := by
  induction lines generalizing before depth with
  | nil => exact ⟨rfl, rfl⟩
  | cons line rest ih =>
    rw [leadingGroup] at heven ⊢
    by_cases hends : (isBlankText line && braceDepth before == some 0)
    · obtain ⟨hblank, hzero⟩ : isBlankText line ∧ braceDepth before = some 0 := by
        simpa using hends
      obtain rfl : depth = 0 := by simpa [hdepth] using hzero
      rw [if_pos hends]
      simp [splitGroup, hblank]
    · rw [if_neg hends] at heven ⊢
      have hconcat : before ++ line :: rest = before ++ [line] ++ rest := by simp
      rw [hconcat] at hfeed hsome
      obtain ⟨e, he⟩ := Option.isSome_iff_exists.mp (braceDepth_isSome_of_append hsome)
      have hwhole : ∀ w, w ∈ wholeLines (heldAfter [] before) [line] ∨
          w ∈ wholeLines (heldAfter [] (before ++ [line]))
            (leadingGroup (before ++ [line]) rest).1 → hidesEvenly w := by
        intro w hw
        apply heven w
        have happend := wholeLines_append (heldAfter [] before) [line]
          (leadingGroup (before ++ [line]) rest).1
        rw [← heldAfter_append] at happend
        rw [singleton_append] at happend
        rw [happend, mem_append]
        exact hw
      have hcount := braceDepth_concat (fun l hl => hfeed l (mem_append_left _ hl))
        hdepth he fun w hw => hwhole w (.inl hw)
      have hrest := ih hfeed he hsome fun w hw => hwhole w (.inr hw)
      by_cases hblank : isBlankText line
      · have hzero : ∀ {c : Char}, isBlank c = false → line.count c = 0 := by
          intro c hc
          rw [← count_trim hc, (isBlankText_iff line).mp hblank]
          rfl
        rw [hzero (by decide), hzero (by decide)] at hcount
        obtain rfl : e = depth := by omega
        have hne : (e == 0) = false := by
          rw [beq_eq_false_iff_ne]
          rintro rfl
          exact hends (by simp [hblank, hdepth])
        simp [splitGroup, hblank, hne, hrest.1, hrest.2, (isBlankText_iff line).mp hblank]
      · have hnext : depth + line.count '\x7b' - line.count '\x7d' = e := by omega
        rw [splitGroup, if_neg hblank]
        simp only [hnext]
        rw [if_neg (by omega)]
        simp [trim_indented, hrest.1, hrest.2]

/-! ### The normalized lines -/

theorem eq_append_of_dropPrefix {pre s rest} (h : dropPrefix? pre s = some rest) :
    s = pre ++ rest := by
  induction pre generalizing s with
  | nil => simpa [dropPrefix?] using h
  | cons p _ ih =>
    cases s with
    | nil => simp [dropPrefix?] at h
    | cons =>
      rw [dropPrefix?] at h
      split at h
      · next hc =>
        rw [ih h, ← beq_iff_eq.mp hc, cons_append]
      · cases h

variable (s : Text)

theorem trim_trimEnd : trim (trimEnd s) = trim s := by
  have hsplit : s = trimEnd s ++ s.rtakeWhile isBlank := by
    rw [trimEnd_eq]
    exact (rdropWhile_append_rtakeWhile).symm
  conv_rhs => rw [hsplit]
  exact (trim_append_blanks _ fun c hc => mem_rtakeWhile_imp hc).symm

theorem trim_dedent {margin} (hmargin : ∀ c ∈ margin, isBlank c) (line : Text) :
    trim (dedent margin line) = trim line := by
  unfold dedent
  split
  · next hblank =>
    rw [(isBlankText_iff line).mp hblank]
    rfl
  · cases hdrop : dropPrefix? margin line with
    | none => exact trim_trim line
    | some rest =>
      rw [eq_append_of_dropPrefix hdrop, trim_blanks_append rest hmargin]
      exact trim_trimEnd rest

theorem map_trim_dedentLines (lines : List Text) :
    (dedentLines lines).map trim = lines.map trim := by
  rw [dedentLines, map_map]
  refine map_congr_left fun line _ => trim_dedent (fun c hc => ?_) line
  cases hfind : lines.find? (!isBlankText ·) with
  | none => simp [hfind] at hc
  | some =>
    simp only [hfind] at hc
    exact mem_takeWhile_imp hc

theorem dedentLines_oneLine (h : ∀ line ∈ lines, '\n' ∉ line) :
    ∀ line ∈ dedentLines lines, '\n' ∉ line := by
  intro _ hline
  obtain ⟨raw, hraw, rfl⟩ := mem_map.mp hline
  unfold dedent
  split
  · simp
  · cases hdrop : dropPrefix? _ raw with
    | none => exact fun hc => h raw hraw (mem_of_mem_trim hc)
    | some rest =>
      intro hc
      simp only [trimEnd_eq] at hc
      refine h raw hraw ?_
      rw [eq_append_of_dropPrefix hdrop]
      exact mem_append_right _ (( rdropWhile_prefix _ rest).subset hc)

theorem lines_append_break (hline : '\n' ∉ line) (rest : Text) :
    Text.lines (line ++ '\n' :: rest) = Text.dropReturn line :: Text.lines rest := by
  have hpieces : pieces (line ++ '\n' :: rest) = line :: pieces rest :=
    splitOn_append rest hline
  have hne : pieces rest ≠ [] := splitOn_ne_nil '\n' rest
  obtain ⟨init, last, hrest⟩ := eq_nil_or_concat (pieces rest) |>.resolve_left hne
  rw [concat_eq_append] at hrest
  have hall : line :: (init ++ [last]) = (line :: init) ++ [last] := rfl
  simp only [Text.lines, hpieces, hrest, hall, getLast?_concat, dropLast_concat]
  cases last <;> simp

theorem dropWhile_lines_dropFirstBreak :
    (Text.lines (dropFirstBreak s)).dropWhile isBlankText =
      (Text.lines s).dropWhile isBlankText := by
  unfold dropFirstBreak
  split
  · next rest =>
    have hlines := lines_append_break ['\r'] (by decide) rest
    rw [singleton_append] at hlines
    rw [hlines]
    rfl
  · next rest =>
    have hlines := lines_append_break [] (by decide) rest
    rw [nil_append] at hlines
    rw [hlines]
    rfl
  · rfl

theorem map_trim_dropWhile {a b : List Text} (h : a.map trim = b.map trim) :
    (a.dropWhile isBlankText).map trim =
      (b.dropWhile isBlankText).map trim := by
  have hpred : isBlankText ∘ trim = isBlankText := funext isBlankText_trim
  calc (a.dropWhile isBlankText).map trim
      = (a.map trim).dropWhile isBlankText := by rw [dropWhile_map, hpred]
    _ = (b.map trim).dropWhile isBlankText := by rw [h]
    _ = (b.dropWhile isBlankText).map trim := by rw [dropWhile_map, hpred]

theorem isBareDeclaration_trim : isBareDeclaration (trim line) = isBareDeclaration line := by
  have hmem : ∀ {c : Char}, isBlank c = false →
      (trim line).contains c = line.contains c := by
    intro c hc
    rw [Bool.eq_iff_iff, contains_iff_mem, contains_iff_mem, ← count_pos_iff,
      ← count_pos_iff, count_trim hc]
  rw [isBareDeclaration, isBareDeclaration, hmem (by decide), hmem (by decide), trim_trim]

/-! ### Blank lines in front -/

namespace Token

theorem wholeLines_blanks {blanks} (h : ∀ line ∈ blanks, trim line = []) (rest : List Text) :
    wholeLines [] (blanks ++ rest) = blanks.map trim ++ wholeLines [] rest := by
  have hcontinues : continues [] = false := by decide
  induction blanks with
  | nil => rfl
  | cons blank _ ih =>
    have hblank := h blank (by simp)
    have hrest := ih fun line hline => h line (by simp [hline])
    rw [cons_append, wholeLines, hblank, hcontinues, hrest]
    simp [hblank]

theorem braceDepth_blanks {blanks} (h : ∀ line ∈ blanks, trim line = [])
    (rest : List Text) : braceDepth (blanks ++ rest) = braceDepth rest := by
  have hblanks : ∀ depth,
      depthAfter depth ((blanks.map trim).flatMap splitLine) = some depth := by
    intro _
    induction blanks with
    | nil => rfl
    | cons blank _ ih =>
      rw [map_cons, h blank (by simp)]
      exact ih fun line hline => h line (by simp [hline])
  rw [braceDepth, wholeLines_blanks h, flatMap_append, depthAfter_append, hblanks]
  rfl

theorem ofLine_append_brace {root} (h : IsHead (trim root)) :
    ofLine (root ++ [' ', '\x7b']) = [.open (trim root)] := by
  have hblanks : ∀ {t : Text}, (∀ c ∈ t, isBlank c) →
      hides isBrace {} t ∧ Scanner.run {} t = {} := by
    intro t ht
    refine ⟨hides_of_forall {} fun c hc => ?_, regular_start.run_blanks ht⟩
    rw [Bool.eq_false_iff]
    intro hbrace
    rcases (by simpa [isBrace] using hbrace : c = '\x7b' ∨ c = '\x7d') with rfl | rfl
    · exact absurd (ht _ hc) (by decide)
    · exact absurd (ht _ hc) (by decide)
  obtain ⟨_, _, hroot, hbefore, hafter⟩ := exists_trim root
  obtain ⟨hhides, hrun⟩ : hides isBrace {} (root ++ [' ']) ∧
      Scanner.run {} (root ++ [' ']) = {} := by
    rw [hroot]
    simp [(hblanks hbefore).1, (hblanks hbefore).2, (hblanks hafter).1, (hblanks hafter).2,
      h.hidden, h.top, hblanks (t := [' ']) (forall_mem_singleton.2 (by decide))]
  -- the blanks in front of the selector are no part of the trimmed line
  have hstart : root ++ [' '] = (root ++ [' ']).takeWhile isBlank ++
      trimStart (root ++ [' ']) := takeWhile_append_dropWhile.symm
  obtain ⟨_, hfrontRun⟩ := hblanks fun c hc =>
    mem_takeWhile_imp (l := root ++ [' ']) (p := isBlank) hc
  rw [hstart, hides_append, hfrontRun, Bool.and_eq_true] at hhides
  rw [hstart, run_append, hfrontRun] at hrun
  have hline : openLine 0 root = root ++ [' ', '\x7b'] := rfl
  have hopen : trim (openLine 0 root) = trimStart (root ++ [' ']) ++ ['\x7b'] :=
    trim_openLine_eq 0 root
  rw [← hline, ofLine_openLine_eq, hopen, ofText_open [] hhides.2 hrun, ofText_nil,
    trim_trimStart, trim_append_blank root (by decide)]

end Token

/-! ### The rules of the group -/

namespace Flattener

theorem previousBlank_of_close {line} {m m' : Flattener}
    (h : m.step line .close = (m', none)) : m'.previousBlank = false := by
  simp only [step, closeRule] at h
  split at h
  · simp [after] at h
  · simp only [after, Prod.mk.injEq, and_true] at h
    rw [← h]

/-- What follows a rule is flattened as if it stood alone. -/
theorem takes_group (root head : Text) {group rest : List Token}
    (hgroup : depthAfter 0 group = some 0) (hrest : depthAfter 0 rest = some 0) :
    ∃ m₁ m₂ m, (start (some root)).takes (.open head :: group ++ [.close]) = some m₁ ∧
      (start (some root)).takes rest = some m₂ ∧
      (start (some root)).takes (.open head :: group ++ .close :: rest) = some m ∧
      m.finish = m₁.finish ++ m₂.finish := by
  have hstart := At.start (some root)
  obtain ⟨opened, hopen, hopened, -⟩ := hstart.moves_open head 0
  obtain ⟨_, inner, _, hinside, hat, hinner⟩ :=
    At.takes_depth (show At (some root) ([] ++ [head]) _ opened from hopened) hgroup
  obtain rfl : inner = [] := eq_nil_of_length_eq_zero hinner
  obtain ⟨closed, hclose, hclosed, -⟩ := At.moves_close hat 0
  obtain ⟨last, _, _, hlast, -, -⟩ :=
    At.takes_depth (show At (some root) ([] ++ []) _ _ from hstart) hrest
  -- outside of all rules nothing but the rules given so far is left of the group
  obtain ⟨rules, rfl⟩ : ∃ rules, closed = (start (some root)).behind rules := by
    obtain ⟨stack, rules, root', previousBlank⟩ := closed
    obtain rfl : root' = some root := hclosed.root_eq
    obtain rfl : stack = [] := by simpa [place] using hclosed.stack_eq
    obtain rfl : previousBlank = false := previousBlank_of_close hclose
    exact ⟨rules, by simp [behind, start]⟩
  have htakes : ∀ tokens, (start (some root)).takes (.open head :: group ++ .close :: tokens) =
      ((start (some root)).behind rules).takes tokens := by
    intro _
    rw [cons_append, takes, hopen]
    simp only
    rw [takes_append, hinside, Option.bind_some, takes, hclose]
  refine ⟨_, last, last.behind rules, htakes [], hlast, ?_, ?_⟩
  · rw [htakes rest, takes_behind, hlast]
    rfl
  · rw [finish_behind, finish_behind]
    simp [finish, start, finishStack]

end Flattener

def fromFirstLine (s : Text) : List Text :=
  (Text.lines s).dropWhile isBlankText

theorem lines_eq_blanks_append :
    ∃ blanks, (∀ line ∈ blanks, trim line = []) ∧ Text.lines s = blanks ++ fromFirstLine s :=
  ⟨(Text.lines s).takeWhile isBlankText,
    fun line hline => (isBlankText_iff line).mp (mem_takeWhile_imp hline),
    takeWhile_append_dropWhile.symm⟩

/-- The dedented lines, from the first one that is not blank. -/
def dedented (s : Text) : List Text :=
  (dedentLines (Text.lines (dropFirstBreak s))).dropWhile isBlankText

theorem map_trim_dedented : (dedented s).map trim = (fromFirstLine s).map trim := by
  rw [dedented, map_trim_dropWhile (map_trim_dedentLines _), dropWhile_lines_dropFirstBreak,
    fromFirstLine]

theorem dedented_oneLine : ∀ line ∈ dedented s, '\n' ∉ line :=
  fun line hline => dedentLines_oneLine (fun _ => not_mem_of_mem_lines) line
    ((dropWhile_suffix _).subset hline)

theorem isBareDeclaration_dedented :
    (dedented s).head?.any isBareDeclaration = (fromFirstLine s).head?.any isBareDeclaration := by
  have hhead := congrArg (·.head?.any isBareDeclaration) (map_trim_dedented s)
  simpa [Option.any_map, isBareDeclaration_trim] using hhead

/-- Normalization puts the rule of the root selector around the group that it finds. -/
theorem wrapRoot_eq {s} (root : Text) (name : String)
    (hbare : (fromFirstLine s).head?.any isBareDeclaration) :
    ∃ group others : List Text,
      group.map trim = (splitGroup 0 (fromFirstLine s)).1.map trim ∧
      others.map trim = (splitGroup 0 (fromFirstLine s)).2.map trim ∧
      (∀ line ∈ group ++ others, '\n' ∉ line) ∧
      wrapRoot (dedentLines (Text.lines (dropFirstBreak s))) (some root) name =
        .ok ((root ++ [' ', '\x7b']) :: group ++ ['\x7d'] :: others) := by
  have hdedent := splitGroup_map_trim 0 (dedented s)
  have hsource := splitGroup_map_trim 0 (fromFirstLine s)
  rw [map_trim_dedented] at hdedent
  refine ⟨_, _, hdedent.1.symm.trans hsource.1, hdedent.2.symm.trans hsource.2,
    splitGroup_oneLine 0 (dedented_oneLine s), ?_⟩
  rw [← isBareDeclaration_dedented] at hbare
  rw [wrapRoot, ← dedented]
  cases hlines : dedented s with
  | nil => simp [hlines] at hbare
  | cons first =>
    have hfirst : isBareDeclaration first := by simpa [hlines] using hbare
    simp [hfirst]

theorem eq_ok_of_toOption {ε α : Type} {a} {x : Except ε α} (h : x.toOption = some a) :
    x = .ok a := by
  cases x with
  | error => cases h
  | ok => exact congrArg Except.ok (Option.some.inj h)

/-- Neither the group nor what follows it leaves a rule open. -/
theorem depthAfter_leadingGroup {group rest} (hfeed : ∀ line ∈ lines, '\n' ∉ line)
    (hbalanced : braceDepth lines = some 0)
    (halone : ∀ line ∈ wholeLines [] lines, standsAlone line)
    (hgroup : leadingGroup [] lines = (group, rest)) :
    depthAfter 0 (reads [] group) = some 0 ∧
      depthAfter 0 (reads [] rest) = some 0 := by
  obtain ⟨hends, hrest⟩ := leadingGroup_ends [] hbalanced
  have hlines := leadingGroup_append [] lines
  rw [hgroup] at hends hrest hlines
  obtain rfl : group ++ rest = lines := hlines
  have hreads : reads [] (group ++ rest) = reads [] group ++ reads [] rest := by
    rcases hrest with hnil | ⟨blank, rest', hblank, hcons⟩
    · obtain rfl : rest = [] := hnil
      simp [reads]
    · obtain rfl : rest = blank :: rest' := hcons
      have hfirst := reads_append_blank hblank [] [] rest'
      rw [nil_append] at hfirst
      rw [reads_append_blank hblank, hfirst]
      rfl
  have hdepth : depthAfter 0 (reads [] group) = some 0 := by
    rw [← braceDepth_eq (fun line hline => hfeed line (mem_append_left _ hline)) ?_]
    · exact hends
    · intro line hline
      refine halone line ?_
      rw [wholeLines_append]
      exact mem_append_left _ hline
  have hall := braceDepth_eq hfeed halone
  rw [hbalanced, hreads, depthAfter_append, hdepth] at hall
  exact ⟨hdepth, hall.symm⟩

/-- The tokens of lines in the rule of a selector, and of what follows it. -/
theorem reads_wrapped {root} (hroot : IsHead (trim root)) (lines rest : List Text) :
    reads [] ((root ++ [' ', '\x7b']) :: lines ++ ['\x7d'] :: rest) =
      .open (trim root) :: reads [] lines ++ .close :: reads [] rest := by
  have hcontinues : continues (trim (root ++ [' ', '\x7b'])) = false := by
    rw [append_cons, trim_concat _ (by decide)]
    simp [continues]
  have hclose : (['\x7d'] : Text) = closeLine 0 := rfl
  rw [cons_append, reads_cons hcontinues, ofLine_append_brace hroot, hclose,
    reads_append_closeLine]
  rfl

theorem reads_congr {a b} (h : a.map trim = b.map trim) : reads [] a = reads [] b := by
  rw [← reads_map_trim, h, reads_map_trim]

theorem toOption_flattenRules_dropEnd (h : ∀ line ∈ lines, '\n' ∉ line) (root : Option Text) :
    (flattenRules (unlines (dropEndWhile isBlankText lines)) root).toOption =
      ((Flattener.start root).takes (reads [] lines)).map Flattener.finish := by
  have hsplit : lines = dropEndWhile isBlankText lines ++
      lines.rtakeWhile isBlankText := by
    rw [dropEndWhile_eq_rdropWhile]
    exact rdropWhile_append_rtakeWhile.symm
  have hblanks : ∀ line ∈ lines.rtakeWhile isBlankText, trim line = [] :=
    fun line hline => (isBlankText_iff line).mp (mem_rtakeWhile_imp hline)
  rw [toOption_flattenRules_unlines, ← Flattener.map_finish_takes_blanks _ hblanks, ← hsplit]
  intro line hline
  exact h line (by rw [hsplit]; exact mem_append_left _ hline)

/-- Exactly the rules of the leading group are nested under the root selector, where the one-line
rules stand alone and the lines of the group hide braces evenly. -/
theorem flattenRules_normalizeRoot {s root : Text} {group rest : List Text} (name : String)
    (hcomments : stripComments s = s) (hbalanced : Token.braceDepth (Text.lines s) = some 0)
    (hbare : (fromFirstLine s).head?.any isBareDeclaration = true)
    (hroot : '\n' ∉ root ∧ IsHead (trim root))
    (hgroup : leadingGroup [] (fromFirstLine s) = (group, rest))
    (halone : ∀ line ∈ Token.wholeLines [] (Text.lines s), Token.standsAlone line = true)
    (heven : ∀ line ∈ Token.wholeLines [] group, Token.hidesEvenly line = true) :
    ∃ normalized nested others,
      normalizeRoot s (some root) name = .ok normalized ∧
      flattenRules (unlines ((root ++ [' ', '\x7b']) :: group ++ [['\x7d']])) (some root) =
        .ok nested ∧
      flattenRules (unlines rest) (some root) = .ok others ∧
      flattenRules normalized (some root) = .ok (nested ++ others) := by
  obtain ⟨_, hblanks, hlines⟩ := lines_eq_blanks_append s
  have hfeed : ∀ line ∈ fromFirstLine s, '\n' ∉ line := fun line hline =>
    Text.not_mem_of_mem_lines (by rw [hlines]; exact List.mem_append_right _ hline)
  rw [hlines] at hbalanced halone
  rw [Token.braceDepth_blanks hblanks] at hbalanced
  rw [Token.wholeLines_blanks hblanks] at halone
  have hlinesOf : group ++ rest = fromFirstLine s := by
    simpa [hgroup] using leadingGroup_append [] (fromFirstLine s)
  -- normalization finds the leading group
  obtain ⟨hsplit, hsplitRest⟩ := splitGroup_eq (fromFirstLine s) hfeed
    (rfl : Token.braceDepth [] = some 0) (by rw [List.nil_append, hbalanced]; rfl)
    (by rw [hgroup]; exact heven)
  rw [hgroup] at hsplit hsplitRest
  obtain ⟨_, _, hgroup', hrest', honeLine, hwrap⟩ := wrapRoot_eq root name hbare
  rw [hsplit] at hgroup'
  rw [hsplitRest] at hrest'
  -- the machine over the tokens of the group and of the rest
  obtain ⟨hdepth, hdepthRest⟩ := depthAfter_leadingGroup hfeed hbalanced
    (fun line hline => halone line (List.mem_append_right _ hline)) hgroup
  obtain ⟨m₁, m₂, m, hnested, hothers, hboth, hfinish⟩ := Flattener.takes_group root
    (trim root) hdepth hdepthRest
  have hopenFeed : '\n' ∉ root ++ [' ', '\x7b'] := by simp [hroot.1]
  have hcloseFeed : '\n' ∉ (['\x7d'] : Text) := by decide
  refine ⟨_, m₁.finish, m₂.finish, by rw [normalizeRoot, hcomments, hwrap]; rfl,
    eq_ok_of_toOption ?_, eq_ok_of_toOption ?_, eq_ok_of_toOption ?_⟩
  · rw [toOption_flattenRules_unlines, reads_wrapped hroot.2]
    · simpa [Token.reads] using congrArg (Option.map Flattener.finish) hnested
    · simp only [List.cons_append, List.forall_mem_cons, List.forall_mem_append]
      exact ⟨hopenFeed, fun line hline => hfeed line (by simp [← hlinesOf, hline]), hcloseFeed,
        by simp⟩
  · rw [toOption_flattenRules_unlines, hothers]
    · rfl
    · exact fun line hline => hfeed line (by simp [← hlinesOf, hline])
  · rw [toOption_flattenRules_dropEnd, reads_wrapped hroot.2, reads_congr hgroup',
      reads_congr hrest', hboth]
    · exact congrArg some hfinish
    · simp only [List.cons_append, List.forall_mem_cons, List.forall_mem_append] at honeLine ⊢
      exact ⟨hopenFeed, honeLine.1, hcloseFeed, honeLine.2⟩

/-- A rule with a blank line and a quoted pair of braces in the group, and a rule after it. -/
theorem flattenRules_normalizeRoot_nested :
    let root : Text := ".r".toList
    let group : List Text := ["color: red;".toList, ".a \x7b".toList,
      "  content: '\x7b\x7d';".toList, [], "  margin: 0;".toList, ['\x7d']]
    let rest : List Text := [[], ".b \x7b top: 0; \x7d".toList]
    leadingGroup [] (fromFirstLine (unlines (group ++ rest))) = (group, rest) ∧
      ∃ normalized nested others,
        normalizeRoot (unlines (group ++ rest)) (some root) "ROOT_CLASS" = .ok normalized ∧
        flattenRules (unlines ((root ++ [' ', '\x7b']) :: group ++ [['\x7d']])) (some root) =
          .ok nested ∧
        flattenRules (unlines rest) (some root) = .ok others ∧
        flattenRules normalized (some root) = .ok (nested ++ others) := by
  intro _ group rest
  have hgroup : leadingGroup [] (fromFirstLine (unlines (group ++ rest))) = (group, rest) := by
    decide +kernel
  exact ⟨hgroup, flattenRules_normalizeRoot "ROOT_CLASS" (by decide +kernel) (by decide +kernel)
    (by decide +kernel) (by decide +kernel) hgroup (by decide +kernel) (by decide +kernel)⟩

/-- An opening brace in a string keeps the group open past the blank line that ends it, so the rule
after it is nested under the root selector too. -/
theorem flattenRules_normalizeRoot_quoted :
    let root : Text := ".r".toList
    let group : List Text := ["color: red;".toList, "content: '\x7b';".toList]
    let rest : List Text := [[], ".b \x7b".toList, "  margin: 0;".toList, ['\x7d']]
    let s := unlines (group ++ rest)
    let own : Rule := ⟨root, group, []⟩
    (stripComments s = s ∧ Token.braceDepth (Text.lines s) = some 0 ∧
        (fromFirstLine s).head?.any isBareDeclaration = true ∧
        leadingGroup [] (fromFirstLine s) = (group, rest)) ∧
      flattenRules (unlines ((root ++ [' ', '\x7b']) :: group ++ [['\x7d']])) (some root) =
        .ok [own] ∧
      flattenRules (unlines rest) (some root) =
        .ok [⟨".b".toList, ["margin: 0;".toList], []⟩] ∧
      (normalizeRoot s (some root) "ROOT_CLASS").bind (flattenRules · (some root)) =
        .ok [own, ⟨".r .b".toList, ["margin: 0;".toList], []⟩] := by
  decide +kernel

end Sveltify.Style
