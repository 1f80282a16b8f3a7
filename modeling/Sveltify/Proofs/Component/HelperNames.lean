import Mathlib.Data.List.Nodup
import Mathlib.Data.List.Perm.Subperm
import Sveltify.Component.Part

/-! Names of helper functions. The names that are tried for a base all differ, so that one of them is
free before as many are tried as are taken, and a name that is given out is never given out again. -/

namespace Sveltify.Draft

open List

/-- The names that are tried for a helper, in their order. -/
def candidate (base : String) : Nat → String
  | 0 => base
  | k + 1 => s!"{base}{k + 2}"

variable {base : String} {taken : List String}

theorem toList_candidate_succ (base : String) (k : Nat) :
    (candidate base (k + 1)).toList = base.toList ++ Nat.toDigits 10 (k + 2) := by
  simp [candidate, toString]

theorem candidate_injective (base : String) : (candidate base).Injective := by
  have hlonger : ∀ k, candidate base (k + 1) ≠ base := by
    intro k heq
    have htext := congrArg String.toList heq
    rw [toList_candidate_succ, append_right_eq_self] at htext
    exact Nat.toDigits_ne_nil htext
  intro i j heq
  rcases i with _ | i <;> rcases j with _ | j
  · rfl
  · exact absurd heq.symm (hlonger j)
  · exact absurd heq (hlonger i)
  · have htext := congrArg String.toList heq
    rw [toList_candidate_succ, toList_candidate_succ, append_cancel_left_eq] at htext
    have hnumber := congrArg (Nat.ofDigitChars 10 · 0) htext
    simpa [Nat.ofDigitChars_ten_toDigits] using hnumber

theorem le_length_of_taken {k} (h : ∀ j < k, candidate base j ∈ taken) :
    k ≤ taken.length := by
  have hnodup : ((List.range k).map (candidate base)).Nodup :=
    nodup_range.map (candidate_injective base)
  have hsub : (List.range k).map (candidate base) ⊆ taken := by
    intro _ hname
    obtain ⟨j, hj, rfl⟩ := mem_map.1 hname
    exact h j (mem_range.1 hj)
  simpa using (hnodup.subperm hsub).length_le

/-- What the search returns from the `k`-th name on: a name that is taken only if the tries ran out. -/
theorem exists_freshName (taken : List String) (base : String) (tries k : Nat) :
    ∃ m, freshName taken base tries (k + 2) (candidate base k) = candidate base m ∧
      (∀ j, k ≤ j → j < m → candidate base j ∈ taken) ∧
      (candidate base m ∈ taken → m = k + tries) := by
  induction tries generalizing k with
  | zero => exact ⟨k, rfl, fun j hk hj => absurd hj (by omega), fun _ => rfl⟩
  | succ _ ih =>
    rw [freshName]
    split
    · next htaken =>
      obtain ⟨m, hname, hbefore, hlast⟩ := ih (k + 1)
      refine ⟨m, hname, fun j hk hj => ?_, fun hm => by rw [hlast hm]; omega⟩
      rcases Nat.eq_or_lt_of_le hk with rfl | hk
      · exact contains_iff_mem.1 htaken
      · exact hbefore j hk hj
    · next hfree =>
      exact ⟨k, rfl, fun j hk hj => absurd hj (by omega), fun hk => absurd (by simpa using hk) hfree⟩

/-- The search ends at the first name that is free, after no more failures than names are taken. -/
theorem helperName_first_free (d : Draft) (base : String) :
    ∃ k ≤ d.helperNames.length, (d.helperName base).1 = candidate base k ∧
      candidate base k ∉ d.helperNames ∧ ∀ j < k, candidate base j ∈ d.helperNames := by
  obtain ⟨k, hname, hbefore, hlast⟩ :=
    exists_freshName d.helperNames base (d.helperNames.length + 1) 0
  have hbefore : ∀ j < k, candidate base j ∈ d.helperNames := fun j hj => hbefore j (Nat.zero_le j) hj
  have hle := le_length_of_taken hbefore
  refine ⟨k, hle, hname, fun htaken => ?_, hbefore⟩
  have := hlast htaken
  omega

/-- Gives a name to a helper for each of the bases, one after another. -/
def nameHelpers (bases : List String) : Conversion (List String) :=
  bases.mapM fun base => modifyGet (·.helperName base)

theorem nameHelpers_cons (base : String) (bases : List String) (d : Draft) :
    (nameHelpers (base :: bases)).run d =
      let named := d.helperName base
      let rest := (nameHelpers bases).run named.2
      (named.1 :: rest.1, rest.2) := by
  rw [nameHelpers, mapM_cons]
  rfl

/-- However the bases look, every call gives out the first free one of its names, and no two calls
give out the same: a name is its base, or its base with a number from two on. -/
theorem helper_names_fresh (d : Draft) (bases : List String) :
    (∀ base, ∃ k ≤ d.helperNames.length, (d.helperName base).1 = candidate base k ∧
      candidate base k ∉ d.helperNames ∧ ∀ j < k, candidate base j ∈ d.helperNames) ∧
    let names := ((nameHelpers bases).run d).1
    names.Nodup ∧ (∀ name ∈ names, name ∉ d.helperNames) ∧
      List.Forall₂ (fun base name => name = base ∨ ∃ n ≥ 2, name = s!"{base}{n}") bases names := by
  refine ⟨d.helperName_first_free, ?_⟩
  induction bases generalizing d with
  | nil => exact ⟨.nil, forall_mem_nil _, .nil⟩
  | cons base _ ih =>
    obtain ⟨k, -, hname, _, -⟩ := d.helperName_first_free base
    obtain ⟨hnodup, hfresh, hforms⟩ := ih (d.helperName base).2
    rw [nameHelpers_cons]
    refine ⟨nodup_cons.2 ⟨fun hmem => ?_, hnodup⟩, fun name hmem => ?_, .cons ?_ hforms⟩
    · exact hfresh _ hmem (by simp [helperName])
    · rcases mem_cons.1 hmem with rfl | hmem
      · rwa [hname]
      · exact fun htaken => hfresh name hmem (by simp [helperName, htaken])
    · rw [hname]
      cases k with
      | zero => exact .inl rfl
      | succ k => exact .inr ⟨k + 2, by omega, rfl⟩

example : ((nameHelpers ["mapA", "mapA2", "mapA", "mapA2"]).run {}).1 =
    ["mapA", "mapA2", "mapA3", "mapA22"] := by decide

end Sveltify.Draft
