import Sveltify.Proofs.Style.Scanner

/-! Splitting again. Declarations and selectors that a text has been split into are found again when
they are joined: a text is cut where it is balanced, so that the scanner starts anew behind the cut. -/

namespace Sveltify.Style

open List
open Text (trim joinWith isBlank)
open Scanner

/-- A way to take texts apart at a character on top level. What is cut off keeps its `tail`, and what
is blank is left out. -/
structure SplitsAt (sep : Char) (tail : Text) (split : Text → List Text) : Prop where
  solid : isBlank sep = false
  tail_cases : tail = [] ∨ tail = [sep]
  whole {t : Text} : hides (· == sep) {} t → split t = if trim t = [] then [] else [trim t]
  cut {a : Text} (b : Text) : hides (· == sep) {} a → run {} a = {} →
    split (a ++ sep :: b) =
      (if trim (a ++ tail) = tail then [] else [trim (a ++ tail)]) ++ split b

/-- A piece that is cut off. -/
structure IsCutOff (sep : Char) (tail d : Text) : Prop where
  trimmed : trim d = d
  ne_tail : d ≠ tail
  ends : ∃ a, d = a ++ tail ∧ hides (· == sep) {} a ∧ run {} a = {}

theorem splitsAt_splitDeclarations : SplitsAt ';' [';'] splitDeclarations where
  solid := by decide
  tail_cases := .inr rfl
  whole := splitDeclarations_of_hides
  cut := splitDeclarations_cut

theorem splitsAt_splitSelectors : SplitsAt ',' [] splitSelectors where
  solid := by decide
  tail_cases := .inl rfl
  whole {t} h := by
    rw [splitSelectors, splitTop_of_hides h]
    by_cases hnone : trim t = [] <;> simp [hnone]
  cut {a} b h hrun := by
    rw [splitSelectors, splitTop_cut b h hrun]
    by_cases hnone : trim a = [] <;> simp [hnone, splitSelectors]

namespace SplitsAt

variable {sep : Char} {tail : Text} {split : Text → List Text} (h : SplitsAt sep tail split)

include h

@[elab_as_elim]
theorem induction {motive : Text → Prop} (whole : ∀ t, hides (· == sep) {} t → motive t)
    (cut : ∀ a b, hides (· == sep) {} a → run {} a = {} → motive b → motive (a ++ sep :: b))
    (t : Text) : motive t := by
  refine cuts_induction whole (fun a c b hc => ?_) t
  obtain rfl : c = sep := by simpa using hc
  exact cut a b

theorem isCutOff {a} (ha : hides (· == sep) {} a) (hrun : run {} a = {})
    (hne : trim (a ++ tail) ≠ tail) : IsCutOff sep tail (trim (a ++ tail)) := by
  refine ⟨Text.trim_trim _, hne, ?_⟩
  obtain rfl | rfl := h.tail_cases
  · exact ⟨trim a, by simp, hides_trim ha, by rw [run_trim, hrun]⟩
  · refine ⟨Text.trimStart a, Text.trim_concat a h.solid, hides_trimStart ha, ?_⟩
    rw [← run_trim, Text.trim_trimStart, run_trim, hrun]

theorem blank_cons (t : Text) : split (' ' :: t) = split t := by
  have htrim : ∀ s, trim (' ' :: s) = trim s := Text.trim_blank_cons (by decide)
  have hsep : sep ≠ ' ' := by
    rintro rfl
    exact absurd h.solid (by decide)
  have hhides : ∀ s, hides (· == sep) {} s → hides (· == sep) {} (' ' :: s) :=
    fun s hs => by simpa [hides, Ne.symm hsep, show advance {} ' ' = {} by decide] using hs
  induction t using h.induction with
  | whole t ht => rw [h.whole ht, h.whole (hhides t ht), htrim]
  | cut a b ha hrun =>
    have hcut := h.cut b (hhides a ha) hrun
    rw [cons_append, cons_append, htrim] at hcut
    rw [hcut, h.cut b ha hrun]

theorem cutOff_append {d} (hd : IsCutOff sep tail d) {between}
    (hbetween : tail ++ between = [sep, ' ']) (b : Text) :
    split (d ++ between ++ b) = d :: split b := by
  obtain ⟨a, rfl, ha, hrun⟩ := hd.ends
  rw [append_assoc a, hbetween, append_assoc, cons_append, cons_append,
    nil_append, h.cut _ ha hrun, hd.trimmed, if_neg hd.ne_tail, h.blank_cons,
    singleton_append]

theorem cutOff {d} (hd : IsCutOff sep tail d) : split d = [d] := by
  obtain ⟨a, rfl, ha, hrun⟩ := hd.ends
  have htrim := hd.trimmed
  have hne := hd.ne_tail
  obtain rfl | rfl := h.tail_cases
  · rw [append_nil] at htrim hne ⊢
    rw [h.whole ha, htrim, if_neg hne]
  · rw [h.cut [] ha hrun, htrim, if_neg hne, h.whole rfl]
    rfl

theorem eq_self_of_mem {t d} (hd : d ∈ split t) : split d = [d] := by
  induction t using h.induction with
  | whole t ht =>
    rw [h.whole ht] at hd
    split at hd
    · simp at hd
    · next hne =>
      obtain rfl := mem_singleton.1 hd
      rw [h.whole (hides_trim ht), Text.trim_trim, if_neg hne]
  | cut a b ha hrun ih =>
    rw [h.cut b ha hrun] at hd
    obtain hd | hd := mem_append.1 hd
    · split at hd
      · simp at hd
      · next hne =>
        obtain rfl := mem_singleton.1 hd
        exact h.cutOff (h.isCutOff ha hrun hne)
    · exact ih hd

theorem split_joinWith_split {between} (hbetween : tail ++ between = [sep, ' ']) (t : Text) :
    split (joinWith between (split t)) = split t := by
  induction t using h.induction with
  | whole t ht =>
    rw [h.whole ht]
    split
    · exact h.whole rfl
    · next hne => rw [joinWith, h.whole (hides_trim ht), Text.trim_trim, if_neg hne]
  | cut a b ha hrun ih =>
    rw [h.cut b ha hrun]
    split
    · exact ih
    · next hne =>
      have hpiece := h.isCutOff ha hrun hne
      rw [singleton_append]
      cases hrest : split b with
      | nil => exact h.cutOff hpiece
      | cons next rest =>
        rw [joinWith, h.cutOff_append hpiece hbetween, ← hrest, ih]
        exact cons_ne_nil next rest

/-- Only blanks and the characters at which a text is cut get lost. -/
theorem filter_flatten {p} (hblank : ∀ c, isBlank c → p c = false)
    (hsep : p sep = false) (t : Text) : (split t).flatten.filter p = t.filter p := by
  have htail : tail.filter p = [] := by
    obtain rfl | rfl := h.tail_cases <;> simp [hsep]
  induction t using h.induction with
  | whole t ht =>
    rw [h.whole ht, ← Text.filter_trim hblank t]
    split
    · next hnone => rw [hnone, flatten_nil]
    · rw [flatten_singleton]
  | cut a b ha hrun ih =>
    have hpiece : (trim (a ++ tail)).filter p = a.filter p := by
      rw [Text.filter_trim hblank, filter_append, htail, append_nil]
    rw [h.cut b ha hrun, flatten_append, filter_append, ih, filter_append,
      filter_cons_of_neg (by simp [hsep]), ← hpiece]
    split
    · next hnone => rw [hnone, htail, flatten_nil, filter_nil]
    · rw [flatten_singleton]

theorem subset_of_mem {t d} (hd : d ∈ split t) : d ⊆ t := by
  induction t using h.induction with
  | whole t ht =>
    rw [h.whole ht] at hd
    split at hd
    · simp at hd
    · obtain rfl := mem_singleton.1 hd
      exact fun _ => Text.mem_of_mem_trim
  | cut a b ha hrun ih =>
    rw [h.cut b ha hrun] at hd
    obtain hd | hd := mem_append.1 hd
    · split at hd
      · simp at hd
      · obtain rfl := mem_singleton.1 hd
        intro c hc
        have hmem := Text.mem_of_mem_trim hc
        obtain rfl | rfl := h.tail_cases <;> grind
    · exact fun c hc => by simp [ih hd hc]

end SplitsAt

/-- Characters that are neither blank nor the one at which a text is cut. -/
def isInner (sep c : Char) : Bool :=
  !isBlank c && c != sep

/-- Declarations and selectors are taken apart in the same way when they are joined again, and nothing
but blanks and the characters at which a text is cut gets lost. -/
theorem split_joined (t : Text) :
    (∀ d ∈ splitDeclarations t,
      trim d = d ∧ d ≠ [] ∧ d ≠ [';'] ∧ splitDeclarations d = [d]) ∧
    splitDeclarations (joinWith [' '] (splitDeclarations t)) = splitDeclarations t ∧
    (splitDeclarations t).flatten.filter (isInner ';') = t.filter (isInner ';') ∧
    splitSelectors (joinWith [',', ' '] (splitSelectors t)) = splitSelectors t ∧
    (splitSelectors t).flatten.filter (isInner ',') = t.filter (isInner ',') := by
  have hdeclarations := splitsAt_splitDeclarations
  have hselectors := splitsAt_splitSelectors
  have hblank (sep c : Char) (hc : isBlank c) : isInner sep c = false := by simp [isInner, hc]
  have hsep (sep : Char) : isInner sep sep = false := by simp [isInner]
  refine ⟨fun d hd => ?_, hdeclarations.split_joinWith_split rfl t,
    hdeclarations.filter_flatten (hblank ';') (hsep ';') t, hselectors.split_joinWith_split rfl t,
    hselectors.filter_flatten (hblank ',') (hsep ',') t⟩
  have hself := hdeclarations.eq_self_of_mem hd
  refine ⟨trim_of_mem_splitDeclarations hd, ?_, ?_, hself⟩ <;> rintro rfl <;>
    exact absurd hself (by decide)

end Sveltify.Style
