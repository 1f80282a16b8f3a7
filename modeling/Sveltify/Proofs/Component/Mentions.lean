import Sveltify.Convert

/-! Names that a text mentions. Occurrences of a name are looked for one behind the other. Nothing is
missed by that: an occurrence that overlaps another one has a character of a name before it. -/

namespace Sveltify

open List
open Text (isWordChar dropPrefix?)

theorem Text.dropPrefix?_eq_some_iff {pre s rest} :
    dropPrefix? pre s = some rest ↔ s = pre ++ rest := by
  induction pre generalizing s with
  | nil => simp [dropPrefix?]
  | cons p _ ih =>
    cases s with
    | nil => simp [dropPrefix?]
    | cons c =>
      by_cases hc : p = c
      · simp [dropPrefix?, hc, ih]
      · simp [dropPrefix?, hc, Ne.symm hc]

/-- No character of a name stands there. -/
def isEdge (c : Option Char) : Bool :=
  !c.any isWordChar

/-- The name stands in the text as a whole word, with the character `before` in front of the text and
at least `skip` characters before the name. -/
def Mentioned (name : Text) (before : Option Char) (skip : Nat) (text : Text) : Prop :=
  ∃ ahead behind, text = ahead ++ name ++ behind ∧ skip ≤ ahead.length ∧
    isEdge (ahead.getLast?.or before) ∧ isEdge behind.head?

variable {name text : Text} {before : Option Char} {c : Char} {skip : Nat}

/-- Either the name stands at the start, or it is mentioned behind the first character. -/
theorem mentioned_cons : Mentioned name before skip (c :: text) ↔
    (skip = 0 ∧ isEdge before ∧ ∃ behind, c :: text = name ++ behind ∧ isEdge behind.head?) ∨
      Mentioned name (some c) (skip - 1) text := by
  have hlast : ∀ ahead : Text, ((c :: ahead).getLast?).or before = ahead.getLast?.or (some c) := by
    simp [getLast?_cons]
  constructor
  · rintro ⟨_ | ⟨d, ahead⟩, behind, htext, hskip, hbefore, hbehind⟩
    · exact .inl ⟨Nat.le_zero.1 hskip, hbefore, behind, htext, hbehind⟩
    · obtain ⟨rfl, rfl⟩ := List.cons.inj htext
      rw [hlast] at hbefore
      exact .inr ⟨ahead, behind, rfl, Nat.sub_le_of_le_add hskip, hbefore, hbehind⟩
  · rintro (⟨rfl, hbefore, behind, htext, hbehind⟩ | ⟨ahead, behind, rfl, hskip, hbefore, hbehind⟩)
    · exact ⟨[], behind, htext, Nat.zero_le _, hbefore, hbehind⟩
    · rw [← hlast] at hbefore
      exact ⟨c :: ahead, behind, rfl, Nat.le_add_of_sub_le hskip, hbefore, hbehind⟩

theorem startsWithWord_iff : startsWithWord name text = true ↔
    ∃ behind, text = name ++ behind ∧ isEdge behind.head? := by
  unfold startsWithWord
  cases hdrop : Text.dropPrefix? name text with
  | some rest =>
    obtain rfl := Text.dropPrefix?_eq_some_iff.1 hdrop
    simp [isEdge]
  | none =>
    have hno : ∀ rest, text ≠ name ++ rest := fun rest htext => by
      simp [Text.dropPrefix?_eq_some_iff.2 htext] at hdrop
    simp [hno]

/-- Behind the start of an occurrence the next whole word is one that does not overlap it. -/
theorem Mentioned.past_start {behind} (hword : ∀ d ∈ name, isWordChar d)
    (hname : c :: text = name ++ behind) (h : Mentioned name (some c) 0 text) :
    Mentioned name (some c) (name.length - 1) text := by
  obtain ⟨ahead, after, htext, -, hbefore, hafter⟩ := h
  refine ⟨ahead, after, htext, Nat.le_of_not_lt fun hlt => ?_, hbefore, hafter⟩
  -- otherwise what stands before the occurrence is a part of the name
  have hahead : c :: ahead <+: name ++ behind := ⟨name ++ after, by rw [← hname, htext]; simp⟩
  have hpart : c :: ahead <+: name :=
    prefix_of_prefix_length_le hahead ( prefix_append name behind) (by rw [length_cons]; omega)
  have hlast := hword _ (hpart.subset (getLast_mem (cons_ne_nil c ahead)))
  have hgetLast : (c :: ahead).getLast (cons_ne_nil c ahead) = ahead.getLast?.getD c := by
    rw [← Option.some_inj, ← getLast?_eq_some_getLast, getLast?_cons]
  simp [isEdge, ← hgetLast, hlast] at hbefore

theorem Mentioned.mono {skip'} (hskip : skip ≤ skip') (h : Mentioned name before skip' text) :
    Mentioned name before skip text := by
  obtain ⟨ahead, behind, htext, hle, hedges⟩ := h
  exact ⟨ahead, behind, htext, Nat.le_trans hskip hle, hedges⟩

/-- The search finds what there is, though it passes over occurrences that overlap. -/
theorem mentionsFrom_iff (hne : name ≠ []) (hword : ∀ d ∈ name, isWordChar d) :
    mentionsFrom name before skip text = true ↔ Mentioned name before skip text := by
  fun_induction mentionsFrom name before skip text with
  | case1 => simp [Mentioned, hne]
  | case2 before _ c rest ih =>
    rw [ih, mentioned_cons]
    simp
  | case3 before c rest hprefix ih =>
    obtain ⟨behind, hdrop⟩ := Option.isSome_iff_exists.1 hprefix
    have hskip : Mentioned name (some c) (name.length - 1) rest ↔ Mentioned name (some c) 0 rest :=
      ⟨.mono (Nat.zero_le _), .past_start hword (Text.dropPrefix?_eq_some_iff.1 hdrop)⟩
    rw [Bool.or_eq_true, Bool.and_eq_true, ih, hskip, startsWithWord_iff, mentioned_cons]
    simp [isEdge]
  | case4 _ c rest hno ih =>
    have hfree : ∀ behind, c :: rest ≠ name ++ behind := fun behind htext =>
      hno (Option.isSome_iff_exists.2 ⟨behind, Text.dropPrefix?_eq_some_iff.2 htext⟩)
    rw [ih, mentioned_cons]
    simp [hfree]

/-- A text mentions a name where the name stands as a whole word. -/
theorem mentions_iff_whole_word (text name : Text) (hne : name ≠ [])
    (hword : ∀ c ∈ name, isWordChar c) :
    mentions text name = true ↔ ∃ ahead behind, text = ahead ++ name ++ behind ∧
      isEdge ahead.getLast? ∧ isEdge behind.head? := by
  rw [mentions, mentionsFrom_iff hne hword]
  simp [Mentioned]

/-- The search passes over the occurrence that it could not find whole, and finds the next one. -/
theorem mentions_behind_overlap : "$a$".toList ≠ [] ∧ (∀ c ∈ "$a$".toList, isWordChar c) ∧
    mentions "$a$a$ $a$".toList "$a$".toList = true :=
  have hword : ∀ c ∈ "$a$".toList, isWordChar c := all_eq_true.1 (by decide)
  ⟨by decide, hword, (mentions_iff_whole_word _ _ (by decide) hword).2
    ⟨"$a$a$ ".toList, [], by decide⟩⟩

end Sveltify
