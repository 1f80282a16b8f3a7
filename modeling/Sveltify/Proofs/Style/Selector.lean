import Mathlib.Algebra.Order.BigOperators.Group.List
import Mathlib.Algebra.Order.Group.Nat
import Mathlib.Algebra.Ring.Nat
import Sveltify.Proofs.Style.Splitting
import Sveltify.Style.Selector

/-! Counting characters through the joining of selectors. Splitting a selector list loses only
blanks and commas; joining it with its parents repeats the parents once for each alternative and
each `&`, so that no character kind is lost, and where nothing of one kind is repeated, nothing of a
kind that only stands beside it is. A chain of nested lists is joined to the product of its lists. -/

namespace Sveltify.Style

open List
open Text (isBlank joinWith trim)
open Scanner (splitTop)

/-- A kind of character that splitting a selector list does not remove. -/
structure Kept (p : Char → Bool) : Prop where
  blank : ∀ c, isBlank c = true → p c = false
  comma : p ',' = false

theorem kept_of_all {chars : List Char} (hblank : chars.all (!isBlank ·))
    (hcomma : ',' ∉ chars) : Kept chars.contains := by
  refine ⟨fun c hc => ?_, by simpa using hcomma⟩
  have hmem : c ∉ chars := fun hmem => by
    simpa [hc] using all_eq_true.mp hblank c hmem
  simpa using hmem

theorem kept_isOpener : Kept Scanner.isOpener :=
  kept_of_all (by decide) (by decide)

theorem kept_isBrace : Kept isBrace := by
  refine ⟨fun c hc => ?_, by decide⟩
  have hbraces : ['\x7b', '\x7d'].all (!isBlank ·) := by decide
  simpa [isBrace] using (kept_of_all hbraces (by decide)).blank c hc

namespace Kept

variable {p : Char → Bool} (h : Kept p)
include h

theorem space : p ' ' = false :=
  h.blank ' ' (by decide)

/-! ### Splitting -/

theorem sum_splitSelectors (t : Text) :
    ((splitSelectors t).map (List.countP p)).sum = t.countP p := by
  rw [← countP_flatten, countP_eq_length_filter, countP_eq_length_filter,
    splitsAt_splitSelectors.filter_flatten h.blank h.comma]

theorem countP_joinWith (parts : List Text) :
    (joinWith [',', ' '] parts).countP p = (parts.map (List.countP p)).sum := by
  induction parts with
  | nil => rfl
  | cons _ rest ih =>
    cases rest with
    | nil => simp [joinWith]
    | cons =>
      rw [joinWith, countP_append, ih]
      · simp [h.comma, h.space]
      · simp

/-! ### Joining -/

theorem countP_trimStart (t : Text) : (Text.trimStart t).countP p = t.countP p := by
  have hsplit := takeWhile_append_dropWhile (p := isBlank) (l := t)
  have hblank : (t.takeWhile isBlank).countP p = 0 := by
    rw [countP_eq_zero]
    intro c hc
    simp [h.blank c (mem_takeWhile_imp hc)]
  have hcount : t.countP p = (t.takeWhile isBlank ++ t.dropWhile isBlank).countP p := by
    rw [hsplit]
  rw [hcount, countP_append, hblank, Nat.zero_add]
  rfl

theorem countP_stripAmpersand (hp : p '&' = false) (t : Text) :
    (stripAmpersand t).countP p = t.countP p := by
  unfold stripAmpersand
  split
  · rw [h.countP_trimStart, countP_cons_of_neg (by simp [hp])]
  · rfl

end Kept

def copies (fragment : Text) : Nat :=
  if fragment.contains '&' then fragment.count '&' else 1

def total (p : Char → Bool) (alternatives : List Text) : Nat :=
  (alternatives.map (List.countP p)).sum

theorem copies_pos (fragment : Text) : 0 < copies fragment := by
  unfold copies
  split
  · rename_i h
    exact count_pos_iff.mpr (by simpa using h)
  · decide

theorem countP_replaceAmpersand {p} (hp : p '&' = false) (parent fragment : Text) :
    (replaceAmpersand parent fragment).countP p =
      fragment.countP p + fragment.count '&' * parent.countP p := by
  induction fragment with
  | nil => simp [replaceAmpersand]
  | cons c _ ih =>
    unfold replaceAmpersand at ih ⊢
    rw [flatMap_cons, countP_append, countP_cons, count_cons]
    by_cases hc : c = '&'
    · subst hc
      simp only [beq_self_eq_true, if_true, hp, Bool.false_eq_true, if_false, Nat.add_mul]
      omega
    · simp only [beq_eq_false_iff_ne.mpr hc, Bool.false_eq_true, if_false, countP_singleton,
        Nat.add_zero]
      omega

theorem joinSelector_cons (parent : Text) (parents : List Text) (head : Text) :
    joinSelector (some (parent :: parents)) head =
      (splitSelectors head).map (joinOne parent) ++ joinSelector (some parents) head :=
  flatMap_cons

namespace Kept

variable {p : Char → Bool} (h : Kept p) (hp : p '&' = false)
include h hp

theorem countP_joinOne (parent fragment : Text) :
    (joinOne parent fragment).countP p =
      fragment.countP p + copies fragment * parent.countP p := by
  unfold joinOne copies
  split
  · exact countP_replaceAmpersand hp parent fragment
  · rw [countP_append, countP_cons_of_neg (by simp [h.space])]
    omega

theorem total_joinSelector_none (head : Text) :
    total p (joinSelector none head) = head.countP p := by
  rw [joinSelector, total, map_map, ← h.sum_splitSelectors head]
  congr 1
  exact map_congr_left fun part _ => h.countP_stripAmpersand hp part

/-- Joining repeats the head once for each parent, and the parents once for each copy that an
alternative of the head makes. -/
theorem total_joinSelector_some (parents : List Text) (head : Text) :
    total p (joinSelector (some parents) head) =
      parents.length * head.countP p +
        ((splitSelectors head).map copies).sum * total p parents := by
  have hparts : ∀ (parts : List Text) (parent : Text),
      ((parts.map (joinOne parent)).map (List.countP p)).sum =
        (parts.map (List.countP p)).sum + (parts.map copies).sum * parent.countP p := by
    intro parts parent
    induction parts with
    | nil => simp
    | cons _ _ ih =>
      simp only [map_cons, sum_cons, h.countP_joinOne hp, Nat.add_mul]
      omega
  unfold total
  induction parents with
  | nil => simp [joinSelector]
  | cons =>
    rw [joinSelector_cons, map_append, sum_append, hparts, h.sum_splitSelectors,
      map_cons, sum_cons, length_cons, Nat.mul_add, Nat.add_mul]
    omega

end Kept

theorem length_joinSelector_some (parents : List Text) (head : Text) :
    (joinSelector (some parents) head).length = parents.length * (splitSelectors head).length := by
  induction parents with
  | nil => simp [joinSelector]
  | cons _ _ ih =>
    rw [joinSelector_cons, length_append, ih, length_map, length_cons, Nat.add_mul,
      Nat.one_mul, Nat.add_comm]

theorem length_le_sum_copies (parts : List Text) : parts.length ≤ (parts.map copies).sum := by
  induction parts with
  | nil => simp
  | cons part =>
    have hpos := copies_pos part
    rw [map_cons, sum_cons, length_cons]
    omega

def joinHeads (heads : List Text) : Option (List Text) :=
  heads.foldr (fun head outer => some (joinSelector outer head)) none

/-- Where a product by a positive factor repeats nothing of one kind, it repeats nothing of a kind
that is there only with the first. -/
theorem mul_eq_self_of {n a b} (h : n * a = a) (hab : a = 0 → b = 0) : n * b = b := by
  by_cases ha : a = 0
  · simp [hab ha]
  · have hn : n = 1 := Nat.eq_of_mul_eq_mul_right (Nat.pos_of_ne_zero ha) (by omega)
    simp [hn]

/-- Joining never loses a character of a kept kind, and if it repeats none of one kind, it repeats
none of a kind that only stands in texts with the first. -/
theorem total_joinHeads {p q} (hp : Kept p) (hpamp : p '&' = false) (hq : Kept q)
    (hqamp : q '&' = false) {heads alternatives}
    (hheads : ∀ head ∈ heads, head.countP p = 0 → head.countP q = 0)
    (hjoin : joinHeads heads = some alternatives) (hne : alternatives ≠ []) :
    (heads.map (List.countP p)).sum ≤ total p alternatives ∧
      (total p alternatives = (heads.map (List.countP p)).sum →
        total q alternatives = (heads.map (List.countP q)).sum) := by
  induction heads generalizing alternatives with
  | nil => simp [joinHeads] at hjoin
  | cons head outer ih =>
    obtain rfl : joinSelector (joinHeads outer) head = alternatives := by
      simpa [joinHeads] using hjoin
    have hhead := hheads head (by simp)
    cases houter : joinHeads outer with
    | none =>
      obtain rfl : outer = [] := by
        cases outer with
        | nil => rfl
        | cons _ outer => simp [joinHeads] at houter
      simp [hp.total_joinSelector_none hpamp, hq.total_joinSelector_none hqamp]
    | some parents =>
      rw [houter] at hne
      have hlength := length_joinSelector_some parents head
      have hpos : 0 < parents.length * (splitSelectors head).length := by
        rw [← hlength]
        exact length_pos_iff.mpr hne
      have hparents : 0 < parents.length := Nat.pos_of_mul_pos_right hpos
      have hcopies : 0 < ((splitSelectors head).map copies).sum :=
        (Nat.pos_of_mul_pos_left hpos).trans_le (length_le_sum_copies _)
      obtain ⟨_, heq⟩ := ih (fun h hh => hheads h (by simp [hh])) houter
        (length_pos_iff.mp hparents)
      have hrepeat := Nat.le_mul_of_pos_left (head.countP p) hparents
      have hcopy := Nat.le_mul_of_pos_left (total p parents) hcopies
      rw [hp.total_joinSelector_some hpamp, hq.total_joinSelector_some hqamp]
      simp only [map_cons, sum_cons]
      refine ⟨by omega, fun hsum => ?_⟩
      -- nothing of the first kind is repeated: neither the head nor the parents
      have houterq := heq (by omega)
      have hheadq : parents.length * head.countP q = head.countP q :=
        mul_eq_self_of (by omega) hhead
      have hparentsq : ((splitSelectors head).map copies).sum * total q parents =
          total q parents := by
        refine mul_eq_self_of (a := total p parents) (by omega) fun hzero => ?_
        rw [houterq, List.sum_eq_zero_iff_forall_eq_nat]
        intro n hn
        obtain ⟨h, hh, rfl⟩ := mem_map.mp hn
        refine hheads h (by simp [hh]) ?_
        have hsumzero : (outer.map (List.countP p)).sum = 0 := by omega
        exact List.sum_eq_zero_iff_forall_eq_nat.mp hsumzero _ (mem_map_of_mem hh)
      omega

/-! ### Characters -/

variable {c : Char} {t : Text}

variable {part : Text}

theorem mem_joinOne {parent fragment} (h : c ∈ joinOne parent fragment) :
    c ∈ parent ∨ c = ' ' ∨ c ∈ fragment := by
  unfold joinOne at h
  split at h
  · obtain ⟨d, hd, hmem⟩ := mem_flatMap.mp h
    split at hmem
    · exact .inl hmem
    · obtain rfl : c = d := by simpa using hmem
      exact .inr (.inr hd)
  · simpa [or_assoc] using h

/-- A character other than the space that neither a head nor its parents have is in none of the
alternatives that they join to. -/
theorem not_mem_joinSelector {parents head text} (hspace : c ≠ ' ')
    (hhead : c ∉ head) (hparents : ∀ texts, parents = some texts → ∀ t ∈ texts, c ∉ t)
    (htext : text ∈ joinSelector parents head) : c ∉ text := by
  intro hc
  cases parents with
  | none =>
    obtain ⟨part, hpart, rfl⟩ := mem_map.mp htext
    refine hhead (splitsAt_splitSelectors.subset_of_mem hpart ?_)
    unfold stripAmpersand at hc
    split at hc
    · exact mem_cons_of_mem _ ((dropWhile_sublist _).subset hc)
    · exact hc
  | some texts =>
    obtain ⟨parent, hparent, hmem⟩ := mem_flatMap.mp htext
    obtain ⟨_, hpart, rfl⟩ := mem_map.mp hmem
    rcases mem_joinOne hc with hc | hc | hc
    · exact hparents texts rfl parent hparent hc
    · exact hspace hc
    · exact hhead (splitsAt_splitSelectors.subset_of_mem hpart hc)

/-! ### Selectors that joining leaves alone -/

theorem eq_of_sum_map_le {α : Type} {f g : α → Nat} {items : List α}
    (hle : ∀ item ∈ items, f item ≤ g item) (hsum : (items.map g).sum ≤ (items.map f).sum) :
    ∀ item ∈ items, f item = g item := by
  induction items with
  | nil => simp
  | cons item items ih =>
    have hitem := hle item (by simp)
    have hitems : (items.map f).sum ≤ (items.map g).sum :=
      sum_le_sum fun i hi => hle i (by simp [hi])
    rw [map_cons, map_cons, sum_cons, sum_cons] at hsum
    intro i hi
    rcases mem_cons.mp hi with rfl | hi
    · omega
    · exact ih (fun j hj => hle j (by simp [hj])) (by omega) i hi

theorem stripAmpersand_of_head (h : part.head? ≠ some '&') : stripAmpersand part = part := by
  unfold stripAmpersand
  split
  · exact absurd rfl h
  · rfl

theorem mem_splitSelectors (h : part ∈ splitSelectors t) : part ≠ [] ∧ trim part = part := by
  obtain ⟨hmem, hne⟩ := mem_filter.mp h
  obtain ⟨piece, -, rfl⟩ := mem_map.mp hmem
  exact ⟨by simpa using hne, Text.trim_trim piece⟩

theorem trim_joinWith {parts} (h : ∀ part ∈ parts, part ≠ [] ∧ trim part = part) :
    trim (joinWith [',', ' '] parts) = joinWith [',', ' '] parts ∧
      (parts ≠ [] → joinWith [',', ' '] parts ≠ []) := by
  induction parts with
  | nil => exact ⟨rfl, fun hne => absurd rfl hne⟩
  | cons part rest ih =>
    obtain ⟨hne, htrim⟩ := h part (by simp)
    cases rest with
    | nil => exact ⟨htrim, fun _ => hne⟩
    | cons =>
      obtain ⟨hresttrim, hrestne⟩ := ih fun p hp => h p (mem_cons_of_mem _ hp)
      exact ⟨Text.trim_between [',', ' '] htrim hresttrim hne (hrestne (by simp)),
        fun _ => by simp [joinWith]⟩

/-- A text that is what its trimmed form joins to is trimmed: no `&` was lost on the way. -/
theorem trim_of_joinSelector_none
    (h : joinWith [',', ' '] (joinSelector none (trim t)) = t) : trim t = t := by
  have hkept : Kept (· == '&') := ⟨fun c hc => by
    rw [beq_eq_false_iff_ne]
    rintro rfl
    exact absurd hc (by decide), by decide⟩
  have hle : ∀ part ∈ splitSelectors (trim t),
      (stripAmpersand part).countP (· == '&') ≤ part.countP (· == '&') := by
    intro part _
    unfold stripAmpersand
    split
    · rw [hkept.countP_trimStart, countP_cons]
      omega
    · exact Nat.le_refl _
  have hsum : ((splitSelectors (trim t)).map (List.countP (· == '&'))).sum ≤
      ((splitSelectors (trim t)).map fun part =>
        (stripAmpersand part).countP (· == '&')).sum := by
    rw [hkept.sum_splitSelectors, Text.countP_trim hkept.blank]
    conv_lhs => rw [← h]
    rw [hkept.countP_joinWith, joinSelector, map_map]
    rfl
  have heq := eq_of_sum_map_le hle hsum
  have hstrip : ∀ part ∈ splitSelectors (trim t), stripAmpersand part = id part := by
    intro part hpart
    have hcount := heq part hpart
    refine stripAmpersand_of_head fun hhead => ?_
    obtain ⟨_, rfl⟩ := head?_eq_some_iff.mp hhead
    rw [stripAmpersand, hkept.countP_trimStart] at hcount
    simp at hcount
  rw [joinSelector, map_congr_left hstrip, map_id] at h
  rw [← h]
  exact (trim_joinWith fun part hpart => mem_splitSelectors hpart).1

/-! ### Chains of fragments -/

/-- A fragment with one of its alternatives. -/
structure Pick where
  fragment : Text
  index : Fin (splitSelectors fragment).length

namespace Pick

def alternative (p : Pick) : Text :=
  (splitSelectors p.fragment)[p.index]

/-- The place of a choice after the choice `n`, where the last pick changes first. -/
def place (n : Nat) (picks : List Pick) : Nat :=
  picks.foldl (fun n p => n * (splitSelectors p.fragment).length + p.index) n

/-- The selector that a choice gives below a selector. -/
def below (selector : Text) (picks : List Pick) : Text :=
  picks.foldl (fun selector p => joinOne selector p.alternative) selector

theorem getElem?_joinSelector (p : Pick) {parents n parent} (h : parents[n]? = some parent) :
    (joinSelector (some parents) p.fragment)[n * (splitSelectors p.fragment).length + p.index]? =
      some (joinOne parent p.alternative) := by
  induction parents generalizing n with
  | nil => simp at h
  | cons first _ ih =>
    rw [joinSelector_cons]
    cases n with
    | zero =>
      obtain rfl : first = parent := by simpa using h
      rw [getElem?_append_left (by simp)]
      simp [alternative]
    | succ =>
      rw [Nat.succ_mul, Nat.add_right_comm, getElem?_append_right (by simp)]
      simpa using ih (by simpa using h)

end Pick

/-- The alternatives of fragments, each below all of those before it. -/
def nestSelectors (parents : List Text) (fragments : List Text) : List Text :=
  fragments.foldl (fun parents f => joinSelector (some parents) f) parents

theorem foldl_joinSelector (parents fragments : List Text) :
    fragments.foldl (fun outer f => some (joinSelector outer f)) (some parents) =
      some (nestSelectors parents fragments) := by
  induction fragments generalizing parents with
  | nil => rfl
  | cons f _ ih => exact ih _

theorem length_nestSelectors (parents fragments : List Text) :
    (nestSelectors parents fragments).length =
      parents.length * (fragments.map fun f => (splitSelectors f).length).prod := by
  induction fragments generalizing parents with
  | nil => simp [nestSelectors]
  | cons f _ ih =>
    rw [map_cons, prod_cons, ← Nat.mul_assoc, ← length_joinSelector_some]
    exact ih _

theorem getElem?_nestSelectors {parents n parent}
    (h : parents[n]? = some parent) (picks : List Pick) :
    (nestSelectors parents (picks.map (·.fragment)))[Pick.place n picks]? =
      some (Pick.below parent picks) := by
  induction picks generalizing parents n parent with
  | nil => exact h
  | cons p _ ih => exact ih (p.getElem?_joinSelector h)

theorem ampersand_not_mem_nestSelectors {parents} (h : ∀ p ∈ parents, '&' ∉ p)
    (fragments : List Text) : ∀ s ∈ nestSelectors parents fragments, '&' ∉ s := by
  induction fragments generalizing parents with
  | nil => exact h
  | cons f _ ih =>
    refine ih fun s hs => ?_
    obtain ⟨parent, hparent, hs⟩ := mem_flatMap.1 hs
    obtain ⟨a, -, rfl⟩ := mem_map.1 hs
    have hfree := h parent hparent
    unfold joinOne
    split
    · simp only [replaceAmpersand, mem_flatMap, not_exists, not_and]
      intro c _
      split
      · exact hfree
      · next hc => exact fun hmem => hc (beq_iff_eq.2 (mem_singleton.1 hmem).symm)
    · next ha => simp_all

/-- A chain of nested selector lists expands to all choices of one alternative from each list, in
lexicographic order: with one entry for each choice, at the place that the choice has as a number
in mixed radix. An entry starts with the first alternative, without a leading `&`, and is put for
each `&` of the next one or in front of it. A `&` is left only if a first alternative has one more. -/
theorem joinSelector_product (first : Text) (rest : List Text) :
    ∃ entries, (first :: rest).foldl (fun outer f => some (joinSelector outer f)) none =
        some entries ∧
      entries.length = ((first :: rest).map fun f => (splitSelectors f).length).prod ∧
      (∀ (p : Pick) (picks : List Pick), (p :: picks).map (·.fragment) = first :: rest →
        entries[Pick.place 0 (p :: picks)]? =
          some (Pick.below (stripAmpersand p.alternative) picks)) ∧
      ((∀ a ∈ splitSelectors first, '&' ∉ stripAmpersand a) → ∀ s ∈ entries, '&' ∉ s) := by
  refine ⟨nestSelectors (joinSelector none first) rest, foldl_joinSelector _ _, ?_, ?_, ?_⟩
  · simp [length_nestSelectors, joinSelector]
  · intro p picks hpicks
    obtain ⟨rfl, rfl⟩ := List.cons.inj hpicks
    have hfirst : (joinSelector none p.fragment)[(p.index : Nat)]? =
        some (stripAmpersand p.alternative) := by
      simp [joinSelector, Pick.alternative]
    simpa [Pick.place] using getElem?_nestSelectors hfirst picks
  · intro hfree
    exact ampersand_not_mem_nestSelectors (by simpa [joinSelector] using hfree) rest

end Sveltify.Style
