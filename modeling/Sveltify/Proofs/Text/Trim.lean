import Mathlib.Data.List.DropRight
import Sveltify.Text.Blank

/-! Trimming takes away exactly the blanks at the two ends of a text: a text is its trimmed part
between blanks, and that part neither starts nor ends with one. -/

namespace Sveltify.Text

open List

theorem dropEndWhile_eq_rdropWhile {α : Type} (p : α → Bool) (l : List α) :
    dropEndWhile p l = l.rdropWhile p := by
  induction l with
  | nil => rfl
  | cons a rest ih =>
    simp only [dropEndWhile, ih, List.rdropWhile, reverse_cons, dropWhile_append]
    cases h : rest.reverse.dropWhile p with
    | nil => by_cases ha : p a <;> simp [ha]
    | cons b kept =>
      cases hr : (b :: kept).reverse with
      | nil => simp at hr
      | cons => simp [← hr]

theorem trimEnd_eq (s : Text) : trimEnd s = s.rdropWhile isBlank :=
  dropEndWhile_eq_rdropWhile isBlank s

@[simp] theorem trim_nil : trim [] = [] := rfl

theorem exists_trim (s : Text) :
    ∃ before after, s = before ++ trim s ++ after ∧ (∀ c ∈ before, isBlank c) ∧
      ∀ c ∈ after, isBlank c := by
  refine ⟨s.takeWhile isBlank, (trimStart s).rtakeWhile isBlank, ?_, ?_, ?_⟩
  · rw [trim, trimEnd_eq, append_assoc, rdropWhile_append_rtakeWhile, trimStart,
      takeWhile_append_dropWhile]
  · intro c hc
    exact mem_takeWhile_imp hc
  · intro c hc
    exact mem_rtakeWhile_imp hc

theorem trim_surround {before after : Text} (s : Text) (hb : ∀ c ∈ before, isBlank c)
    (ha : ∀ c ∈ after, isBlank c) : trim (before ++ s ++ after) = trim s := by
  have hstart : trimStart (before ++ (s ++ after)) = trimStart (s ++ after) :=
    dropWhile_append_of_pos hb
  rw [append_assoc, trim, hstart, trimStart, dropWhile_append]
  by_cases hs : (s.dropWhile isBlank).isEmpty
  · have hnil : s.dropWhile isBlank = [] := List.isEmpty_iff.mp hs
    have hafter : after.dropWhile isBlank = [] := dropWhile_eq_nil_iff.mpr ha
    simp [hnil, hafter, trim, trimStart]
  · rw [if_neg hs, trimEnd_eq, List.rdropWhile, reverse_append,
      dropWhile_append_of_pos (by simpa using ha), ← List.rdropWhile, ← trimEnd_eq]
    rfl

theorem trim_append_blanks {after} (s : Text) (ha : ∀ c ∈ after, isBlank c) :
    trim (s ++ after) = trim s :=
  @trim_surround [] after s (by simp) ha

variable {c : Char} {s : Text}

theorem trim_append_blank (s : Text) (hc : isBlank c) : trim (s ++ [c]) = trim s :=
  trim_append_blanks s (by simpa using hc)

theorem trim_blanks_append {before : Text} (s : Text) (hb : ∀ c ∈ before, isBlank c) :
    trim (before ++ s) = trim s := by
  simpa using @trim_surround before [] s hb (by simp)

theorem trim_blank_cons (hc : isBlank c) (s : Text) : trim (c :: s) = trim s :=
  @trim_blanks_append [c] s (by simpa using hc)

theorem trim_trimStart (s : Text) : trim (trimStart s) = trim s := by
  have hblank : ∀ c ∈ s.takeWhile isBlank, isBlank c := fun _ hc => mem_takeWhile_imp hc
  rw [trimStart, ← trim_blanks_append _ hblank, takeWhile_append_dropWhile]

theorem head?_trim_not_blank (h : (trim s).head? = some c) : isBlank c = false := by
  have hpre : trim s <+: trimStart s := by
    rw [trim, trimEnd_eq]
    exact rdropWhile_prefix isBlank _
  obtain ⟨rest, hrest⟩ := hpre
  cases ht : trim s with
  | nil => simp [ht] at h
  | cons d tail =>
    obtain rfl : d = c := by simpa [ht] using h
    have hstart : s.dropWhile isBlank = d :: (tail ++ rest) := by
      rw [← trimStart, ← hrest, ht, cons_append]
    have := head_dropWhile_not isBlank (l := s) (by simp [hstart])
    simpa [hstart] using this

theorem getLast?_trim_not_blank (h : (trim s).getLast? = some c) : isBlank c = false := by
  rw [trim, trimEnd_eq] at h
  have hne : (trimStart s).rdropWhile isBlank ≠ [] := by
    intro hnil
    simp [hnil] at h
  rw [getLast?_eq_some_getLast hne, Option.some.injEq] at h
  subst h
  simpa using rdropWhile_last_not isBlank (trimStart s) hne

theorem trim_eq_self (hhead : ∀ c, s.head? = some c → isBlank c = false)
    (hlast : ∀ c, s.getLast? = some c → isBlank c = false) : trim s = s := by
  have hstart : trimStart s = s := by
    cases s with
    | nil => rfl
    | cons c => simp [trimStart, hhead c rfl]
  rw [trim, hstart, trimEnd_eq, rdropWhile_eq_self_iff]
  intro hne
  simp [hlast _ (getLast?_eq_some_getLast hne)]

theorem trim_eq_self_iff (s : Text) :
    trim s = s ↔ (∀ c, s.head? = some c → isBlank c = false) ∧
      ∀ c, s.getLast? = some c → isBlank c = false := by
  constructor
  · intro h
    rw [← h]
    exact ⟨fun c => head?_trim_not_blank, fun c => getLast?_trim_not_blank⟩
  · rintro ⟨hhead, hlast⟩
    exact trim_eq_self hhead hlast

theorem trim_between {a b} (sep : Text) (ha : trim a = a) (hb : trim b = b) (hane : a ≠ [])
    (hbne : b ≠ []) : trim (a ++ sep ++ b) = a ++ sep ++ b := by
  obtain ⟨hstart, -⟩ := (trim_eq_self_iff a).mp ha
  obtain ⟨-, hend⟩ := (trim_eq_self_iff b).mp hb
  refine trim_eq_self (fun c hc => hstart c ?_) fun c hc => hend c ?_
  · rwa [append_assoc, head?_append_of_ne_nil _ hane] at hc
  · rwa [getLast?_append_of_ne_nil _ hbne] at hc

@[simp] theorem trim_trim (s : Text) : trim (trim s) = trim s :=
  trim_eq_self (fun _ => head?_trim_not_blank) fun _ => getLast?_trim_not_blank

theorem trim_concat (s : Text) (hc : isBlank c = false) : trim (s ++ [c]) = trimStart s ++ [c] := by
  have hstart : trimStart (s ++ [c]) = trimStart s ++ [c] := by
    unfold trimStart
    rw [dropWhile_append]
    cases hs : s.dropWhile isBlank with
    | nil => simp [hc]
    | cons => simp
  rw [trim, hstart, trimEnd_eq, rdropWhile_concat_neg _ _ _ (by simp [hc])]

theorem getLast?_trim_append (s : Text) {t} (h : trim t ≠ []) :
    (trim (s ++ t)).getLast? = (trim t).getLast? := by
  obtain ⟨before, after, ht, -, hafter⟩ := exists_trim t
  obtain ⟨init, c, hinit⟩ : ∃ init c, trim t = init ++ [c] := by
    rcases eq_nil_or_concat (trim t) with hnil | ⟨init, c, hconcat⟩
    · exact absurd hnil h
    · exact ⟨init, c, by rw [hconcat, concat_eq_append]⟩
  have hblank : isBlank c = false := getLast?_trim_not_blank (s := t) (by simp [hinit])
  have hsplit : s ++ t = (s ++ before ++ init) ++ [c] ++ after := by
    rw [ht, hinit]
    simp
  rw [hsplit, trim_append_blanks _ hafter, trim_concat _ hblank, hinit]
  simp

theorem filter_trim {p} (hp : ∀ c, isBlank c → p c = false) (s : Text) :
    (trim s).filter p = s.filter p := by
  obtain ⟨before, after, hs, hbefore, hafter⟩ := exists_trim s
  have hnone : ∀ t : Text, (∀ c ∈ t, isBlank c) → t.filter p = [] :=
    fun t ht => filter_eq_nil_iff.2 fun c hc => by simp [hp c (ht c hc)]
  nth_rewrite 2 [hs]
  simp [hnone before hbefore, hnone after hafter]

theorem countP_trim {p} (hp : ∀ c, isBlank c → p c = false) (s : Text) :
    (trim s).countP p = s.countP p := by
  rw [countP_eq_length_filter, filter_trim hp, ← countP_eq_length_filter]

theorem mem_of_mem_trim (h : c ∈ trim s) : c ∈ s := by
  obtain ⟨_, _, hs, -, -⟩ := exists_trim s
  rw [hs]
  simp [h]

end Sveltify.Text
