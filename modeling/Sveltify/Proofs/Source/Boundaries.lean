import Sveltify.Proofs.Source.Splice

/-! Offsets between characters. What is found from one in the text lies between characters too: the
start of its line, the end of the blanks after it, and the ends of the lines that a range occupies. -/

namespace Sveltify

open List Text

theorem Text.splitAtByte_append (u v : Text) : splitAtByte (byteSize u) (u ++ v) = (u, v) := by
  induction u with
  | nil =>
    cases v with
    | nil => rfl
    | cons c => simp [splitAtByte, Nat.ne_of_gt c.utf8Size_pos]
  | cons c u ih => simp [splitAtByte, ih]

namespace Source

variable {source : Source} {offset : Nat}

theorem isBoundary_of_append {u v} (h : source.text = u ++ v) :
    source.isBoundary (byteSize u) :=
  isBoundary_iff.2 ⟨u, v, h, rfl⟩

theorem before_append_after (h : source.isBoundary offset) :
    source.text = source.before offset ++ source.after offset ∧
      byteSize (source.before offset) = offset := by
  obtain ⟨u, v, htext, rfl⟩ := isBoundary_iff.1 h
  have hsplit := splitAtByte_append u v
  rw [before, after, htext, hsplit]
  exact ⟨rfl, rfl⟩

/-- The text before an offset ends with what precedes the offset on its line. -/
theorem exists_ahead (source : Source) (offset : Nat) : ∃ ahead,
    source.before offset = ahead ++ source.lineHead offset ∧
      source.lineStart offset = byteSize ahead ∧ ∀ c ∈ ahead.getLast?, c = '\n' := by
  have hbefore : source.before offset =
      ((source.before offset).reverse.dropWhile (· != '\n')).reverse ++ source.lineHead offset := by
    rw [lineHead, ← reverse_append, takeWhile_append_dropWhile, reverse_reverse]
  refine ⟨_, hbefore, ?_, fun c hc => ?_⟩
  · have hsize := congrArg byteSize hbefore
    rw [byteSize_append] at hsize
    rw [lineStart]
    omega
  · rw [getLast?_reverse] at hc
    have hnot := head?_dropWhile_not (· != '\n') (source.before offset).reverse
    rw [hc] at hnot
    simpa using hnot

theorem isBoundary_lineStart (h : source.isBoundary offset) :
    source.isBoundary (source.lineStart offset) := by
  obtain ⟨htext, -⟩ := before_append_after h
  obtain ⟨_, hbefore, hstart, -⟩ := source.exists_ahead offset
  rw [hstart]
  refine isBoundary_of_append (v := source.lineHead offset ++ source.after offset) ?_
  rw [← append_assoc, ← hbefore, ← htext]

theorem isBoundary_blanksAfter (h : source.isBoundary offset) :
    source.isBoundary (offset + source.blanksAfter offset) := by
  obtain ⟨htext, hsize⟩ := before_append_after h
  let blanks := (source.after offset).takeWhile isBlank
  have hend : offset + source.blanksAfter offset =
      byteSize (source.before offset ++ blanks) := by
    rw [byteSize_append, hsize, blanksAfter]
  rw [hend]
  refine isBoundary_of_append (v := (source.after offset).dropWhile isBlank) ?_
  rw [append_assoc, takeWhile_append_dropWhile, ← htext]

theorem dropStatementEnd_suffix (s : Text) : dropStatementEnd s <:+ s :=
  (dropWhile_suffix _).trans ((dropWhile_suffix _).trans (dropWhile_suffix _))

theorem isBoundary_statementRange {span} (hstart : source.isBoundary span.start)
    (hstop : source.isBoundary span.stop) :
    source.isBoundary (source.statementRange span).start ∧
      source.isBoundary (source.statementRange span).stop := by
  obtain ⟨htext, _⟩ := before_append_after hstop
  obtain ⟨gap, hgap⟩ := dropStatementEnd_suffix (source.after span.stop)
  have hle : span.stop ≤ source.size := by
    rw [size, htext, byteSize_append]
    omega
  have hend : min span.stop source.size + (byteSize (source.after span.stop) -
      byteSize (dropStatementEnd (source.after span.stop))) =
      byteSize (source.before span.stop ++ gap) := by
    have hafter := congrArg byteSize hgap
    rw [byteSize_append] at hafter ⊢
    omega
  have hline := isBoundary_lineStart hstart
  unfold statementRange
  dsimp only
  rw [hend]
  rw [← hgap, ← append_assoc] at htext
  -- The end of the line is one character or two, and they follow what is dropped before it.
  have hpast (line : Text) {rest : Text}
      (hleft : dropStatementEnd (source.after span.stop) = line ++ rest) :
      source.isBoundary (byteSize (source.before span.stop ++ gap) + byteSize line) := by
    rw [hleft, ← append_assoc] at htext
    rw [← byteSize_append]
    exact isBoundary_of_append htext
  split
  · exact ⟨hstart, hstop⟩
  · split
    · next rest hleft => exact ⟨hline, hpast ['\r', '\n'] hleft⟩
    · next rest hleft => exact ⟨hline, hpast ['\n'] hleft⟩
    · next hleft => exact ⟨hline, hpast [] hleft⟩
    · exact ⟨hstart, hstop⟩

end Source

end Sveltify
