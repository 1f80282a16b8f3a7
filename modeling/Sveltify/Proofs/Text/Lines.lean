import Sveltify.Proofs.Text.Trim
import Sveltify.Text.Lines

/-! Joining lines and splitting the result gives the lines back, up to the carriage return that
splitting drops at the end of a line. -/

namespace Sveltify.Text

open List

theorem splitOn_ne_nil (sep : Char) (s : Text) : splitOn sep s ≠ [] := by
  cases s with
  | nil => simp [splitOn]
  | cons =>
    unfold splitOn
    split
    · simp
    · split <;> simp

variable {parts : List Text} {sep : Char} {s : Text}

theorem splitOn_of_not_mem (h : sep ∉ s) : splitOn sep s = [s] := by
  induction s with
  | nil => rfl
  | cons c s ih =>
    obtain ⟨hc, hs⟩ : sep ≠ c ∧ sep ∉ s := by simpa using h
    simp [splitOn, Ne.symm hc, ih hs]

theorem splitOn_append (rest : Text) (h : sep ∉ s) :
    splitOn sep (s ++ sep :: rest) = s :: splitOn sep rest := by
  induction s with
  | nil => simp [splitOn]
  | cons c s ih =>
    obtain ⟨hc, hs⟩ : sep ≠ c ∧ sep ∉ s := by simpa using h
    simp [splitOn, Ne.symm hc, ih hs]

theorem not_mem_of_mem_splitOn {piece} (h : piece ∈ splitOn sep s) : sep ∉ piece := by
  induction s generalizing piece with
  | nil =>
    obtain rfl : piece = [] := by simpa [splitOn] using h
    simp
  | cons c s ih =>
    unfold splitOn at h
    split at h
    · rcases mem_cons.mp h with rfl | h
      · simp
      · exact ih h
    · rename_i hc
      have hne : c ≠ sep := by simpa using hc
      cases hs : splitOn sep s with
      | nil => exact absurd hs (splitOn_ne_nil sep s)
      | cons =>
        rw [hs] at h ih
        rcases mem_cons.mp h with rfl | h
        · simp [Ne.symm hne, ih mem_cons_self]
        · exact ih (mem_cons_of_mem _ h)

theorem mem_joinWith {sep c} (h : c ∈ joinWith sep parts) :
    c ∈ sep ∨ ∃ part ∈ parts, c ∈ part := by
  induction parts with
  | nil => simp [joinWith] at h
  | cons part rest ih =>
    cases rest with
    | nil => exact .inr ⟨part, by simp, h⟩
    | cons =>
      rw [joinWith, mem_append, mem_append] at h
      · rcases h with (h | h) | h
        · exact .inr ⟨part, by simp, h⟩
        · exact .inl h
        · rcases ih h with h | ⟨p, hp, h⟩
          · exact .inl h
          · exact .inr ⟨p, mem_cons_of_mem _ hp, h⟩
      · simp

theorem splitOn_joinWith (hne : parts ≠ []) (h : ∀ part ∈ parts, sep ∉ part) :
    splitOn sep (joinWith [sep] parts) = parts := by
  induction parts with
  | nil => exact absurd rfl hne
  | cons part rest ih =>
    cases rest with
    | nil => exact splitOn_of_not_mem (h part (by simp))
    | cons =>
      have hrest := ih (by simp) fun p hp => h p (by simp [hp])
      rw [joinWith, append_assoc, singleton_append, splitOn_append _ (h part (by simp)),
        hrest]
      simp

theorem trim_dropReturn (line : Text) : trim (dropReturn line) = trim line := by
  unfold dropReturn dropSuffix?
  cases hrev : line.reverse with
  | nil => simp [dropPrefix?]
  | cons c rest =>
    have hline : line = rest.reverse ++ [c] := by
      rw [← reverse_reverse line, hrev, reverse_cons]
    by_cases hc : c = '\r'
    · subst hc
      rw [hline, trim_append_blank rest.reverse (by decide)]
      simp [dropPrefix?]
    · simp [dropPrefix?, Ne.symm hc]

theorem dropReturn_subset {line c} (h : c ∈ dropReturn line) : c ∈ line := by
  unfold dropReturn dropSuffix? at h
  cases hrev : line.reverse with
  | nil => simpa [hrev, dropPrefix?] using h
  | cons d rest =>
    have hline : line = rest.reverse ++ [d] := by
      rw [← reverse_reverse line, hrev, reverse_cons]
    by_cases hd : '\r' = d
    · rw [hline]
      simp only [hrev, dropPrefix?, hd, reverse_singleton, beq_self_eq_true] at h
      exact mem_append_left _ h
    · simpa [hrev, dropPrefix?, hd] using h

theorem not_mem_of_mem_lines {line} (h : line ∈ lines s) : '\n' ∉ line := by
  have hpieces : ∀ piece ∈ pieces s, '\n' ∉ piece := fun _ => not_mem_of_mem_splitOn
  have hinit : ∀ piece ∈ (pieces s).dropLast.map dropReturn, '\n' ∉ piece := by
    intro _ hpiece
    obtain ⟨raw, hraw, rfl⟩ := mem_map.mp hpiece
    exact fun hmem => hpieces raw (dropLast_subset _ hraw) (dropReturn_subset hmem)
  unfold lines at h
  dsimp only at h
  split at h
  · exact hinit line h
  · rename_i last _ hlast
    rcases mem_append.mp h with h | h
    · exact hinit line h
    · obtain rfl : line = last := by simpa using h
      exact hpieces line (mem_of_getLast? hlast)
  · simp at h

/-- Lines that have no line feed, the last of them not empty, are read back from their text up to
blanks. -/
theorem map_trim_lines_unlines (h : ∀ part ∈ parts, '\n' ∉ part)
    (hlast : parts.getLast? ≠ some []) : (lines (unlines parts)).map trim = parts.map trim := by
  have hreturn : ∀ all : List Text, (all.map dropReturn).map trim = all.map trim := by
    simp [trim_dropReturn]
  cases parts with
  | nil => rfl
  | cons part rest =>
    have hpieces : pieces (unlines (part :: rest)) = part :: rest :=
      splitOn_joinWith (by simp) h
    unfold lines
    rw [hpieces]
    dsimp only
    have hne : part :: rest ≠ [] := by simp
    rw [getLast?_eq_some_getLast hne] at hlast ⊢
    cases hg : (part :: rest).getLast hne with
    | nil => exact absurd (congrArg some hg) hlast
    | cons =>
      rw [map_append, hreturn, ← hg, ← map_append, dropLast_append_getLast]

end Sveltify.Text
