import Sveltify.Proofs.Source.Boundaries

/-! The range that is removed with a statement. It takes trivia only: blanks before the statement,
blanks and semicolons behind it, and the end of its line. So the ranges of two statements, one before
the other, never overlap. -/

namespace Sveltify

open List Text

namespace Source

variable {source : Source} {span : Span}

/-- The offset is that of the first line or follows a line break. -/
def IsLineStart (source : Source) (offset : Nat) : Prop :=
  offset = 0 ∨ ∃ u v, source.text = u ++ '\n' :: v ∧ offset = byteSize (u ++ ['\n'])

def isTrailing (c : Char) : Bool :=
  isIndent c || c == ';'

/-- A range that adds nothing but trivia to another one, and whole lines if it adds any. -/
structure Widens (source : Source) (inner outer : Span) : Prop where
  contains : outer.contains inner
  ahead : (source.slice ⟨outer.start, inner.start⟩).all isIndent
  behind : ∃ trail ending, source.slice ⟨inner.stop, outer.stop⟩ = trail ++ ending ∧
    trail.all isTrailing ∧ ending ∈ [[], ['\n'], ['\r', '\n']]
  starts : outer ≠ inner → source.IsLineStart outer.start
  stops : outer ≠ inner → source.IsLineStart outer.stop ∨ outer.stop = source.size

/-- A character that is neither a blank nor part of a line break. -/
def isSolid (c : Char) : Bool :=
  !isIndent c && c != '\n' && c != '\r'

/-- The first and the last character of the range are solid. -/
def HasSolidEnds (source : Source) (span : Span) : Prop :=
  ∃ first last, (source.slice span).head? = some first ∧
    (source.slice span).getLast? = some last ∧ isSolid first ∧ isSolid last

/-! Ranges as parts of the text. -/

/-- A range that starts and stops between characters. -/
def Covers (source : Source) (span : Span) : Prop :=
  source.isBoundary span.start ∧ source.isBoundary span.stop ∧ span.start ≤ span.stop

instance (source : Source) (span : Span) : Decidable (source.Covers span) :=
  inferInstanceAs (Decidable (_ ∧ _))

theorem slice_of_append {u m v} (h : source.text = u ++ m ++ v) :
    source.slice ⟨byteSize u, byteSize (u ++ m)⟩ = m := by
  rw [slice, h, byteSize_append, bytes?_append]
  rfl

theorem Covers.exists_parts (h : source.Covers span) : ∃ u m v,
    source.text = u ++ m ++ v ∧ span = ⟨byteSize u, byteSize (u ++ m)⟩ := by
  obtain ⟨_, _⟩ := span
  obtain ⟨hstart, hstop, hle⟩ := h
  obtain ⟨u, r, hu, rfl⟩ := isBoundary_iff.1 hstart
  obtain ⟨w, v, hw, rfl⟩ := isBoundary_iff.1 hstop
  obtain ⟨m, rfl, -⟩ := exists_of_append_eq (hu.symm.trans hw) hle
  exact ⟨u, m, v, hw, rfl⟩

/-- A range that is widened, and what is added to it, as parts of the text. -/
structure Parts (source : Source) (span : Span) (ahead lead middle trail ending rest : Text) :
    Prop where
  text : source.text = ahead ++ lead ++ middle ++ trail ++ ending ++ rest
  inner : span = ⟨byteSize (ahead ++ lead), byteSize (ahead ++ lead ++ middle)⟩
  outer : source.statementRange span =
    ⟨byteSize ahead, byteSize (ahead ++ lead ++ middle ++ trail ++ ending)⟩
  line : ∀ c ∈ ahead.getLast?, c = '\n'
  blank : lead.all isIndent
  trailing : trail.all isTrailing
  ends : ending ∈ [[], ['\n'], ['\r', '\n']]
  last : ending = [] → rest = []

theorem exists_dropStatementEnd (s : Text) :
    ∃ trail, s = trail ++ dropStatementEnd s ∧ trail.all isTrailing := by
  let first := s.dropWhile isIndent
  let second := first.dropWhile (· == ';')
  refine ⟨s.takeWhile isIndent ++ first.takeWhile (· == ';') ++ second.takeWhile isIndent, ?_, ?_⟩
  · simp [dropStatementEnd, first, second]
  · have hindent : ∀ (t : Text) c, c ∈ t.takeWhile isIndent → isTrailing c := by
      intro t c hc
      simp [isTrailing, all_eq_true.1 all_takeWhile c hc]
    simp only [all_append, Bool.and_eq_true, all_eq_true]
    refine ⟨⟨hindent s, fun c hc => ?_⟩, hindent second⟩
    have hsemicolon : c == ';' := all_eq_true.1 all_takeWhile c hc
    simp [isTrailing, hsemicolon]

/-- The range of a statement is that of the statement itself, or it is widened to whole lines. -/
theorem statementRange_cases (h : source.Covers span) : source.statementRange span = span ∨
    ∃ ahead lead middle trail ending rest,
      source.Parts span ahead lead middle trail ending rest := by
  obtain ⟨u, m, v, htext, rfl⟩ := h.exists_parts
  have hbefore : source.before (byteSize u) = u := by
    rw [before, htext, append_assoc, splitAtByte_append]
  have hafter : source.after (byteSize (u ++ m)) = v := by
    rw [after, htext, splitAtByte_append]
  obtain ⟨ahead, hahead, hline, hbreak⟩ := source.exists_ahead (byteSize u)
  obtain ⟨trail, hv, htrail⟩ := exists_dropStatementEnd v
  have hend : min (byteSize (u ++ m)) source.size +
      (byteSize v - byteSize (dropStatementEnd v)) = byteSize (u ++ m ++ trail) := by
    have hsize := congrArg byteSize hv
    rw [byteSize_append] at hsize
    rw [size, htext, byteSize_append (u ++ m), byteSize_append (u ++ m)]
    omega
  have hrange := statementRange.eq_1 source ⟨byteSize u, byteSize (u ++ m)⟩
  split at hrange
  · exact .inl hrange
  next hlead =>
  rw [Bool.not_eq_true', Bool.not_eq_false] at hlead
  rw [hbefore] at hahead
  dsimp only at hrange
  rw [hafter, hend, hline] at hrange
  -- Whatever ends the line, the range stops behind it.
  have hparts (ending rest : Text) (hleft : dropStatementEnd v = ending ++ rest)
      (hrange : source.statementRange ⟨byteSize u, byteSize (u ++ m)⟩ =
        ⟨byteSize ahead, byteSize (u ++ m ++ trail) + byteSize ending⟩)
      (hending : ending ∈ [[], ['\n'], ['\r', '\n']]) (hlast : ending = [] → rest = []) :
      source.Parts ⟨byteSize u, byteSize (u ++ m)⟩ ahead (source.lineHead (byteSize u)) m trail
        ending rest := by
    rw [← byteSize_append _ ending] at hrange
    rw [hleft] at hv
    refine ⟨?_, by rw [← hahead], by rw [← hahead, hrange], hbreak, hlead, htrail, hending, hlast⟩
    rw [← hahead, htext, hv]
    simp
  split at hrange
  · next hleft => exact .inr ⟨_, _, _, _, _, _, hparts ['\r', '\n'] _ hleft hrange (by simp) (by simp)⟩
  · next hleft => exact .inr ⟨_, _, _, _, _, _, hparts ['\n'] _ hleft hrange (by simp) (by simp)⟩
  · next hleft => exact .inr ⟨_, _, _, _, _, _, hparts [] [] hleft hrange (by simp) fun _ => rfl⟩
  · exact .inl hrange

/-! The range of one statement. -/

theorem isLineStart_of_ends {u v} (h : source.text = u ++ v)
    (hlast : ∀ c ∈ u.getLast?, c = '\n') : source.IsLineStart (byteSize u) := by
  rcases eq_nil_or_concat' u with rfl | ⟨w, c, rfl⟩
  · exact .inl rfl
  · obtain rfl := hlast c (by simp)
    exact .inr ⟨w, v, by rw [h]; simp, rfl⟩

namespace Parts

variable {ahead lead middle trail ending rest : Text}
  (h : source.Parts span ahead lead middle trail ending rest)
include h

theorem getLast?_ending (hne : ending ≠ []) : ending.getLast? = some '\n' := by
  rcases mem_cons.1 h.ends with heq | hends
  · exact absurd heq hne
  · rcases mem_pair.1 hends with rfl | rfl <;> rfl

theorem widens : source.Widens span (source.statementRange span) := by
  rw [h.outer, h.inner]
  refine ⟨?_, ?_, ⟨trail, ending, ?_, h.trailing, h.ends⟩, fun _ => ?_, fun _ => ?_⟩
  · rw [Span.contains_iff]
    simp only [byteSize_append]
    omega
  · rw [slice_of_append (v := middle ++ trail ++ ending ++ rest) (by simpa using h.text)]
    exact h.blank
  · rw [append_assoc (_ ++ middle)]
    exact slice_of_append (v := rest) (by simpa using h.text)
  · refine isLineStart_of_ends (v := lead ++ middle ++ trail ++ ending ++ rest) ?_ h.line
    simpa using h.text
  · by_cases hnil : ending = []
    · right
      rw [size, h.text, h.last hnil, append_nil]
    · left
      refine isLineStart_of_ends h.text fun c hc => ?_
      rw [getLast?_append, h.getLast?_ending hnil] at hc
      simpa [eq_comm] using hc

end Parts

/-! The ranges of two statements. -/

/-- The character at a cut belongs to every part of the text that starts before the cut and stops
behind it. -/
theorem mem_of_append_eq {x rest t more c} (h : t ++ c :: more = x ++ rest)
    (hlt : byteSize t < byteSize x) : c ∈ x := by
  obtain ⟨z, rfl, hz⟩ := exists_of_append_eq h hlt.le
  cases z with
  | nil => simp at hlt
  | cons =>
    obtain rfl := (List.cons.inj hz).1
    simp

/-- What ends with a character that is no blank ends before the blanks in front of a statement. -/
theorem le_of_blank {q z ahead lead rest c}
    (h : q ++ [c] ++ z = ahead ++ (lead ++ rest)) (hlead : lead.all isIndent)
    (hc : isIndent c = false) (hle : byteSize (q ++ [c]) ≤ byteSize (ahead ++ lead)) :
    byteSize (q ++ [c]) ≤ byteSize ahead := by
  by_contra hlt
  obtain ⟨t, ht, hrest⟩ := exists_of_append_eq h.symm (Nat.le_of_not_le hlt)
  rcases eq_nil_or_concat' t with rfl | ⟨t, d, rfl⟩
  · exact hlt (by rw [ht, append_nil])
  rw [← append_assoc] at ht
  obtain ⟨rfl, hd⟩ := append_inj' ht rfl
  obtain rfl : c = d := by simpa using hd
  rw [append_assoc] at hrest
  have hmem : c ∈ lead := by
    refine mem_of_append_eq hrest.symm ?_
    have hpos := c.utf8Size_pos
    simp only [byteSize_append, byteSize_cons] at hle
    omega
  exact absurd (all_eq_true.1 hlead c hmem) (by simp [hc])

variable {first second : Span}

theorem statementRange_stop_le (hfirst : source.Covers first) (hsecond : source.Covers second)
    (hle : first.stop ≤ second.start) (hsolid : source.HasSolidEnds second)
    (hsemicolon : (source.slice second).head? ≠ some ';') :
    (source.statementRange first).stop ≤ second.start := by
  rcases statementRange_cases hfirst with heq | ⟨ahead, lead, middle, trail, ending, rest, h⟩
  · rwa [heq]
  obtain ⟨u, m, v, htext, rfl⟩ := hsecond.exists_parts
  obtain ⟨c, -, hhead, -, hc, -⟩ := hsolid
  rw [slice_of_append htext] at hhead hsemicolon
  obtain ⟨m, rfl⟩ := head?_eq_some_iff.1 hhead
  by_contra hlt
  rw [h.outer] at hlt
  rw [h.inner] at hle
  have hboth : (ahead ++ lead ++ middle) ++ (trail ++ ending ++ rest) = u ++ (c :: m ++ v) := by
    rw [← append_assoc u, ← htext, h.text]
    simp
  obtain ⟨t, rfl, hrest⟩ := exists_of_append_eq hboth hle
  have hmem : c ∈ trail ++ ending := by
    refine mem_of_append_eq (hrest.symm : t ++ c :: (m ++ v) = _) ?_
    simp only [byteSize_append] at hlt ⊢
    omega
  -- The second statement would start with trivia of the first one.
  rcases mem_append.1 hmem with hmem | hmem
  · have htrailing := all_eq_true.1 h.trailing c hmem
    simp only [isTrailing, isSolid, Bool.or_eq_true, beq_iff_eq] at htrailing hc
    rcases htrailing with hindent | rfl
    · simp [hindent] at hc
    · simp at hsemicolon
  · have hends := h.ends
    simp only [mem_cons, not_mem_nil, or_false] at hends
    rcases hends with rfl | rfl | rfl
    · simp at hmem
    · obtain rfl := mem_singleton.1 hmem
      simp [isSolid] at hc
    · rcases mem_pair.1 hmem with rfl | rfl <;> simp [isSolid] at hc

/-- A range that is removed ends with a character that is no blank, or with the text. -/
theorem exists_last (hfirst : source.Covers first) (hsolid : source.HasSolidEnds first) :
    (∃ q c z, source.text = q ++ [c] ++ z ∧ isIndent c = false ∧
      (source.statementRange first).stop = byteSize (q ++ [c])) ∨
    (source.statementRange first).stop = source.size := by
  rcases statementRange_cases hfirst with heq | ⟨ahead, lead, middle, trail, ending, rest, h⟩
  · obtain ⟨u, m, v, htext, rfl⟩ := hfirst.exists_parts
    obtain ⟨-, c, -, hlast, -, hc⟩ := hsolid
    rw [slice_of_append htext] at hlast
    obtain ⟨m, rfl⟩ := getLast?_eq_some_iff.1 hlast
    refine .inl ⟨u ++ m, c, v, by simpa using htext, ?_, by rw [heq, append_assoc]⟩
    simp only [isSolid, Bool.and_eq_true, Bool.not_eq_true'] at hc
    exact hc.1.1
  · by_cases hnil : ending = []
    · right
      rw [h.outer, size, h.text, h.last hnil, append_nil]
    · obtain ⟨e, rfl⟩ := getLast?_eq_some_iff.1 (h.getLast?_ending hnil)
      refine .inl ⟨ahead ++ lead ++ middle ++ trail ++ e, '\n', rest, ?_, rfl, ?_⟩
      · simpa using h.text
      · rw [h.outer, append_assoc _ e]

/-- What is removed with a statement is the statement and trivia around it, in whole lines if there
are any; and of two statements, one before the other, the ranges that are removed do not overlap. -/
theorem statementRange_takes_trivia (source : Source) :
    (∀ span, source.Covers span → source.Widens span (source.statementRange span)) ∧
    ∀ first second, source.Covers first → source.Covers second → first.stop ≤ second.start →
      source.HasSolidEnds first → source.HasSolidEnds second →
      (source.slice second).head? ≠ some ';' →
      (source.statementRange first).stop ≤ (source.statementRange second).start := by
  refine ⟨fun span h => ?_, fun first second hfirst hsecond hle hsolid hsolid' hsemicolon => ?_⟩
  · rcases statementRange_cases h with heq | ⟨_, _, _, _, _, _, hparts⟩
    · rw [heq]
      exact ⟨Span.contains_self span, by simp [slice_empty], ⟨[], [], slice_empty _ _, rfl, by simp⟩,
        absurd rfl, absurd rfl⟩
    · exact hparts.widens
  · have hstop := statementRange_stop_le hfirst hsecond hle hsolid' hsemicolon
    rcases statementRange_cases hsecond with heq | ⟨ahead, lead, middle, trail, ending, rest, h⟩
    · rwa [heq]
    rw [h.outer]
    rcases exists_last hfirst hsolid with ⟨q, c, z, htext, hc, heq⟩ | heq
    · rw [h.inner, heq] at hstop
      rw [heq]
      have happend : q ++ [c] ++ z = ahead ++ (lead ++ (middle ++ trail ++ ending ++ rest)) := by
        rw [← htext, h.text]
        simp
      exact le_of_blank happend h.blank hc hstop
    · -- Nothing solid follows the end of the text.
      obtain ⟨c, -, hhead, -⟩ := hsolid'
      have htext : source.text = ahead ++ lead ++ middle ++ (trail ++ ending ++ rest) := by
        simpa using h.text
      rw [h.inner, slice_of_append htext] at hhead
      obtain ⟨m, rfl⟩ := List.head?_eq_some_iff.1 hhead
      have hpos := c.utf8Size_pos
      rw [heq, h.inner, size, htext] at hstop
      simp only [byteSize_append, byteSize_cons] at hstop
      omega

/-- Two statements on lines of their own, the first one with trivia behind it. -/
theorem statementRange_takes_trivia_two_lines :
    let source := Source.ofString "\x7b\n  go() ;; \r\n\tstay()\n\x7d"
    let first : Span := ⟨4, 8⟩
    let second : Span := ⟨15, 21⟩
    source.Covers first ∧ source.Covers second ∧ first.stop ≤ second.start ∧
      source.HasSolidEnds first ∧ source.HasSolidEnds second ∧
      (source.slice second).head? ≠ some ';' ∧
      source.statementRange first = ⟨2, 14⟩ ∧ source.statementRange second = ⟨14, 22⟩ ∧
      source.Widens first (source.statementRange first) ∧
      (source.statementRange first).stop ≤ (source.statementRange second).start := by
  intro source first second
  have hfirst : source.Covers first := by decide +kernel
  have hsecond : source.Covers second := by decide +kernel
  have hle : first.stop ≤ second.start := by decide
  have hsolid : source.HasSolidEnds first := ⟨'g', ')', by decide +kernel⟩
  have hsolid' : source.HasSolidEnds second := ⟨'s', ')', by decide +kernel⟩
  have hsemicolon : (source.slice second).head? ≠ some ';' := by decide +kernel
  obtain ⟨hwidens, hapart⟩ := statementRange_takes_trivia source
  exact ⟨hfirst, hsecond, hle, hsolid, hsolid', hsemicolon, by decide +kernel, by decide +kernel,
    hwidens first hfirst, hapart first second hfirst hsecond hle hsolid hsolid' hsemicolon⟩

end Source

end Sveltify
