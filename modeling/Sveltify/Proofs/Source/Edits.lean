import Mathlib.Data.List.Sort
import Sveltify.Source.Edits

/-! Rendering with nested replacements. A replacement that lies inside another one has no effect, so
that what is rendered depends on the outermost replacements only, and of them on those inside the
rendered range. -/

namespace Sveltify

open List Span

namespace Span

def Filled (s : Span) : Prop :=
  s.start < s.stop

def Apart (a b : Span) : Prop :=
  a.stop ≤ b.start ∨ b.stop ≤ a.start

instance (s : Span) : Decidable s.Filled :=
  inferInstanceAs (Decidable (_ < _))

instance (a b : Span) : Decidable (a.Apart b) :=
  inferInstanceAs (Decidable (_ ∨ _))

theorem contains_iff {outer inner : Span} :
    outer.contains inner ↔ outer.start ≤ inner.start ∧ inner.stop ≤ outer.stop := by
  simp [contains]

theorem contains_self (s : Span) : s.contains s := by
  simp [contains]

variable {a b : Span}

theorem contains_trans {c : Span} (hab : a.contains b) (hbc : b.contains c) : a.contains c := by
  rw [contains_iff] at *
  omega

theorem contains_antisymm (hab : a.contains b) (hba : b.contains a) : a = b := by
  simp only [contains_iff] at hab hba
  rw [mk.injEq]
  omega

theorem Filled.of_contains (h : b.Filled) (hab : a.contains b) : a.Filled := by
  rw [contains_iff] at hab
  unfold Filled at *
  omega

theorem Apart.symm (h : a.Apart b) : b.Apart a :=
  Or.symm h

theorem Apart.not_contains (h : a.Apart b) (hb : b.Filled) : a.contains b = false := by
  rw [Bool.eq_false_iff]
  intro hab
  rw [contains_iff] at hab
  unfold Apart at h
  unfold Filled at hb
  omega

end Span

theorem Source.slice_empty (source : Source) (n : Nat) : source.slice ⟨n, n⟩ = [] := by
  unfold Source.slice Text.bytes?
  simp only [le_refl]
  cases Text.dropBytes? n source.text with
  | none => rfl
  | some => simp [Text.takeBytes?]

namespace EditSet

variable {source : Source}

/-! The order of replacements. -/

theorem precedes_iff {a b} : precedes a b ↔ a.span.start < b.span.start ∨
    a.span.start = b.span.start ∧ b.span.stop ≤ a.span.stop := by
  simp [precedes]

instance : IsTrans Edit (precedes · ·) where
  trans a b c hab hbc := by
    rw [precedes_iff] at *
    omega

instance : Std.Total (α := Edit) (precedes · ·) where
  total a b := by
    rw [precedes_iff, precedes_iff]
    omega

theorem insert_eq (e : Edit) (l : List Edit) : insert e l = l.orderedInsert (precedes · ·) e := by
  induction l with
  | nil => rfl
  | cons f l ih => simp [insert, ih]

theorem ordered_eq (l : List Edit) : ordered l = l.insertionSort (precedes · ·) := by
  induction l with
  | nil => rfl
  | cons e l ih => simp [ordered, insert_eq, ih]

theorem pairwise_ordered (l : List Edit) : (ordered l).Pairwise (precedes · ·) := by
  rw [ordered_eq]
  exact pairwise_insertionSort _ l

variable {A B : List Edit} {e : Edit}

theorem mem_ordered {l} : e ∈ ordered l ↔ e ∈ l := by
  rw [ordered_eq, mem_insertionSort]

theorem exists_insert (a : Edit) (l : List Edit) :
    ∃ X Y, l = X ++ Y ∧ insert a l = X ++ a :: Y := by
  induction l with
  | nil => exact ⟨[], [], rfl, rfl⟩
  | cons f l ih =>
    by_cases h : precedes a f
    · exact ⟨[], f :: l, rfl, by simp [insert, h]⟩
    · obtain ⟨X, Y, rfl, hi⟩ := ih
      exact ⟨f :: X, Y, rfl, by simp [insert, h, hi]⟩

theorem insert_split (a g : Edit) (X Y : List Edit)
    (hsorted : (X ++ g :: Y).Pairwise (precedes · ·)) : ∃ X' Y',
    insert a (X ++ g :: Y) = X' ++ g :: Y' ∧ insert a (X ++ Y) = X' ++ Y' ∧ X ⊆ X' ∧
    (precedes a g → a ∈ X') := by
  induction X with
  | nil =>
    by_cases h : precedes a g
    · have hY : insert a Y = a :: Y := by
        cases Y with
        | nil => rfl
        | cons y Y =>
          have hgy : precedes g y := (pairwise_cons.1 hsorted).1 y (by simp)
          have hay : precedes a y := trans_of (precedes · ·) h hgy
          simp [insert, hay]
      exact ⟨[a], Y, by simp [insert, h], by simpa using hY, by simp, by simp⟩
    · exact ⟨[], insert a Y, by simp [insert, h], rfl, by simp, fun hag => absurd hag h⟩
  | cons x X ih =>
    by_cases h : precedes a x
    · refine ⟨a :: x :: X, Y, by simp [insert, h], by simp [insert, h], ?_, by simp⟩
      exact subset_cons_self a (x :: X)
    · obtain ⟨X', Y', hg, hB, hX, ha⟩ := ih (pairwise_cons.1 hsorted).2
      refine ⟨x :: X', Y', by simp [insert, h, hg], by simp [insert, h, hB], ?_, ?_⟩
      · exact cons_subset_cons x hX
      · exact fun hag => mem_cons_of_mem x (ha hag)

/-- Where a replacement goes in the order: behind those recorded earlier that precede it and those
recorded later that it does not precede. -/
theorem ordered_split (A B : List Edit) (g : Edit) : ∃ X Y,
    ordered (A ++ g :: B) = X ++ g :: Y ∧ ordered (A ++ B) = X ++ Y ∧
    (∀ e ∈ A, precedes e g → e ∈ X) ∧ ∀ e ∈ B, precedes g e = false → e ∈ X := by
  induction A with
  | nil =>
    obtain ⟨X, Y, hB, hg⟩ := exists_insert g (ordered B)
    refine ⟨X, Y, hg, hB, by simp, fun e he hge => ?_⟩
    have hsorted : (X ++ g :: Y).Pairwise (precedes · ·) := hg ▸ pairwise_ordered (g :: B)
    have hmem : e ∈ X ++ Y := by rwa [← hB, mem_ordered]
    rcases mem_append.1 hmem with h | h
    · exact h
    · have := (pairwise_cons.1 (pairwise_append.1 hsorted).2.1).1 e h
      simp [hge] at this
  | cons a A ih =>
    obtain ⟨X, Y, hg, hB, hA, hB'⟩ := ih
    have hsorted : (X ++ g :: Y).Pairwise (precedes · ·) := hg ▸ pairwise_ordered (A ++ g :: B)
    obtain ⟨X', Y', hg', hAB, hX, ha⟩ := insert_split a g X Y hsorted
    refine ⟨X', Y', by simpa [ordered, hg] using hg', by simpa [ordered, hB] using hAB, ?_, ?_⟩
    · intro e he heg
      rcases mem_cons.1 he with rfl | he
      · exact ha heg
      · exact hX (hA e he heg)
    · exact fun e he hge => hX (hB' e he hge)

/-! Replacements without effect. -/

variable {span : Span} {g : Edit}

/-- Behind the cursor a replacement is skipped, whatever is applied before its turn comes. -/
theorem apply_skip {stop cursor X Y} (hX : ∀ x ∈ X, x.span.Filled) (hg : g.span.start < cursor) :
    apply source stop cursor (X ++ g :: Y) = apply source stop cursor (X ++ Y) := by
  induction X generalizing cursor with
  | nil => simp [apply, hg]
  | cons x X ih =>
    simp only [mem_cons, forall_eq_or_imp] at hX
    simp only [cons_append, apply]
    split
    · exact ih hX.2 hg
    · next hx =>
      have : x.span.Filled := hX.1
      unfold Filled at this
      rw [ih hX.2 (by omega)]

def Nested (a b : Edit) : Prop :=
  a.span.Apart b.span ∨ b.span.contains a.span ∨ a.span.contains b.span

/-- A replacement inside an earlier one is skipped: when its turn comes, the cursor has passed the
outer one, because no replacement before that crosses its start. -/
theorem apply_absorb {X Y} {stop cursor : Nat} (heX : e ∈ X)
    (hsorted : X.Pairwise (precedes · ·)) (hX : ∀ x ∈ X, x.span.Filled) (hg : g.span.Filled)
    (hin : e.span.contains g.span) (hnested : ∀ x ∈ X, Nested x e)
    (hcursor : cursor ≤ e.span.start ∨ e.span.stop ≤ cursor) :
    apply source stop cursor (X ++ g :: Y) = apply source stop cursor (X ++ Y) := by
  rw [contains_iff] at hin
  unfold Filled at hg
  induction X generalizing cursor with
  | nil => simp at heX
  | cons x X ih =>
    rcases hcursor with hcursor | hcursor
    swap
    · exact apply_skip hX (by omega)
    simp only [cons_append, apply]
    rcases mem_cons.1 heX with rfl | heX
    · rw [if_neg (by omega), if_neg (by omega)]
      rw [apply_skip (fun y hy => hX y (by simp [hy])) (by omega)]
    · have hxe := (precedes_iff.1 ((pairwise_cons.1 hsorted).1 e heX))
      have hnext := fun c => @ih c heX (pairwise_cons.1 hsorted).2
        (fun y hy => hX y (by simp [hy])) (fun y hy => hnested y (by simp [hy]))
      split
      · exact hnext cursor (.inl hcursor)
      · congr 1
        apply hnext
        have := hnested x (by simp)
        unfold Nested Apart at this
        simp only [contains_iff] at this
        omega

/-- A replacement inside another one, or of the same range as one recorded before it, has no
effect. -/
theorem render_absorb (he : e ∈ A ∨ e ∈ B ∧ e.span ≠ g.span) (hin : e.span.contains g.span)
    (hspan : span.contains e.span) (hg : g.span.Filled) (hfilled : ∀ h ∈ A ++ B, h.span.Filled)
    (hnested : ∀ h ∈ A ++ B, Nested h e) :
    render ⟨A ++ g :: B⟩ source span = render ⟨A ++ B⟩ source span := by
  have hgspan : span.contains g.span := contains_trans hspan hin
  unfold render
  simp only [filter_append, filter_cons, hgspan, if_true]
  obtain ⟨X, Y, hXg, hXY, hA, hB⟩ := ordered_split (A.filter fun e => span.contains e.span)
    (B.filter fun e => span.contains e.span) g
  have hsub : ∀ x ∈ X, x ∈ A ++ B := by
    intro x hx
    have : x ∈ ordered (A.filter (fun e => span.contains e.span) ++
        B.filter fun e => span.contains e.span) := by
      rw [hXY]
      exact mem_append_left Y hx
    rw [mem_ordered, ← filter_append] at this
    exact (mem_filter.1 this).1
  have hsorted : X.Pairwise (precedes · ·) := by
    have hXY' := pairwise_ordered (A.filter (fun e => span.contains e.span) ++
      B.filter fun e => span.contains e.span)
    rw [hXY] at hXY'
    exact (pairwise_append.1 hXY').1
  have heX : e ∈ X := by
    rw [contains_iff] at hin
    rcases he with he | ⟨he, hne⟩
    · exact hA e (mem_filter.2 ⟨he, hspan⟩) (precedes_iff.2 (by omega))
    · refine hB e (mem_filter.2 ⟨he, hspan⟩) ?_
      rw [Bool.eq_false_iff]
      intro hge
      rw [precedes_iff] at hge
      apply hne
      rcases hs : e.span with ⟨a, b⟩
      rcases hs' : g.span with ⟨c, d⟩
      simp only [hs, hs', Span.mk.injEq] at *
      omega
  rw [hXg, hXY]
  apply apply_absorb heX hsorted (fun x hx => hfilled x (hsub x hx)) hg hin
    (fun x hx => hnested x (hsub x hx))
  rw [contains_iff] at hspan
  exact .inl hspan.1

theorem render_absorb_all {G} (he : e ∈ B)
    (hin : ∀ g ∈ G, e.span.contains g.span ∧ e.span ≠ g.span) (hspan : span.contains e.span)
    (hfilled : ∀ h ∈ A ++ G ++ B, h.span.Filled) (hnested : ∀ h ∈ A ++ B, Nested h e) :
    render ⟨A ++ G ++ B⟩ source span = render ⟨A ++ B⟩ source span := by
  induction G with
  | nil => simp
  | cons g G ih =>
    simp only [mem_cons, forall_eq_or_imp] at hin
    have hnext := ih hin.2 (fun h hh => hfilled h (by grind))
    rw [← hnext]
    simp only [append_assoc, cons_append]
    apply render_absorb (e := e) (.inr ⟨by simp [he], hin.1.2⟩) hin.1.1 hspan
      (hfilled g (by simp))
    · exact fun h hh => hfilled h (by grind)
    · intro h _
      by_cases hG : h ∈ G
      · exact .inr (.inl (hin.2 h hG).1)
      · exact hnested h (by grind)

theorem render_local {E} (hA : ∀ h ∈ A, span.contains h.span = false)
    (hB : ∀ h ∈ B, span.contains h.span = false) :
    render ⟨A ++ E ++ B⟩ source span = render ⟨E⟩ source span := by
  unfold render
  have hA' : A.filter (fun e => span.contains e.span) = [] := by simpa using hA
  have hB' : B.filter (fun e => span.contains e.span) = [] := by simpa using hB
  simp [hA', hB']

theorem render_whole (span : Span) (text : Text) : render ⟨[⟨span, text⟩]⟩ source span = text := by
  simp [render, contains_self, ordered, insert, apply, Source.slice_empty]

end EditSet

/-! Lists of replacements that give the same text. -/

def Clear (rs : List Span) (es : List Edit) : Prop :=
  ∀ e ∈ es, e.span.Filled ∧ ∀ r ∈ rs, e.span.Apart r

/-- The replacements `es` give the same text as the replacements `ps`, whatever else is replaced
apart from the ranges `rs`. -/
structure Agree (source : Source) (rs : List Span) (es ps : List Edit) : Prop where
  left : ∀ e ∈ es, e.span ∈ rs
  right : ∀ p ∈ ps, p.span ∈ rs
  same : ∀ (span : Span) (A B : List Edit), (∀ r ∈ rs, span.contains r) → Clear rs A → Clear rs B →
    EditSet.render ⟨A ++ es ++ B⟩ source span = EditSet.render ⟨A ++ ps ++ B⟩ source span

section

variable {source : Source} {rs rs' : List Span} {es es' ps ps' : List Edit}

theorem Clear.append (h : Clear rs es) (h' : Clear rs es') : Clear rs (es ++ es') := by
  intro e he
  rcases mem_append.1 he with he | he
  · exact h e he
  · exact h' e he

theorem Clear.mono (h : Clear rs' es) (hrs : rs ⊆ rs') : Clear rs es :=
  fun e he => ⟨(h e he).1, fun r hr => (h e he).2 r (hrs hr)⟩

theorem Clear.of_mem (hes : ∀ e ∈ es, e.span ∈ rs) (hfilled : ∀ r ∈ rs, r.Filled)
    (hapart : ∀ r ∈ rs, ∀ r' ∈ rs', r.Apart r') : Clear rs' es :=
  fun e he => ⟨hfilled _ (hes e he), fun r hr => hapart _ (hes e he) r hr⟩

theorem Clear.not_contains {r} (h : Clear rs es) (hr : r ∈ rs) :
    ∀ e ∈ es, r.contains e.span = false :=
  fun e he => ((h e he).2 r hr).symm.not_contains (h e he).1

namespace Agree

theorem nil : Agree source rs [] [] :=
  ⟨by simp, by simp, fun _ _ _ _ _ _ => rfl⟩

theorem refl (h : ∀ e ∈ es, e.span ∈ rs) : Agree source rs es es :=
  ⟨h, h, fun _ _ _ _ _ _ => rfl⟩

theorem mono (h : Agree source rs es ps) (hrs : rs ⊆ rs') : Agree source rs' es ps where
  left e he := hrs (h.left e he)
  right p hp := hrs (h.right p hp)
  same span A B hspan hA hB :=
    h.same span A B (fun r hr => hspan r (hrs hr)) (hA.mono hrs) (hB.mono hrs)

theorem append (h : Agree source rs es ps) (h' : Agree source rs' es' ps')
    (hfilled : ∀ r ∈ rs, r.Filled) (hfilled' : ∀ r ∈ rs', r.Filled)
    (hapart : ∀ r ∈ rs, ∀ r' ∈ rs', r.Apart r') :
    Agree source (rs ++ rs') (es ++ es') (ps ++ ps') where
  left e he := by
    rcases mem_append.1 he with he | he
    · exact mem_append_left _ (h.left e he)
    · exact mem_append_right _ (h'.left e he)
  right p hp := by
    rcases mem_append.1 hp with hp | hp
    · exact mem_append_left _ (h.right p hp)
    · exact mem_append_right _ (h'.right p hp)
  same span A B hspan hA hB := by
    have hps : Clear rs' ps := .of_mem h.right hfilled hapart
    have hes' : Clear rs es' :=
      .of_mem h'.left hfilled' fun r hr r' hr' => (hapart r' hr' r hr).symm
    have hleft : rs ⊆ rs ++ rs' := subset_append_left rs rs'
    have hright : rs' ⊆ rs ++ rs' := subset_append_right rs rs'
    calc EditSet.render ⟨A ++ (es ++ es') ++ B⟩ source span
        = EditSet.render ⟨A ++ es ++ (es' ++ B)⟩ source span := by simp
      _ = EditSet.render ⟨A ++ ps ++ (es' ++ B)⟩ source span :=
          h.same span A (es' ++ B) (fun r hr => hspan r (hleft hr)) (hA.mono hleft)
            (hes'.append (hB.mono hleft))
      _ = EditSet.render ⟨A ++ ps ++ es' ++ B⟩ source span := by simp
      _ = EditSet.render ⟨A ++ ps ++ ps' ++ B⟩ source span :=
          h'.same span (A ++ ps) B (fun r hr => hspan r (hright hr)) ((hA.mono hright).append hps)
            (hB.mono hright)
      _ = EditSet.render ⟨A ++ (ps ++ ps') ++ B⟩ source span := by simp

/-- A replacement hides those before it that lie strictly inside it. -/
theorem outer {e} (hes : ∀ g ∈ es, g.span ∈ rs) (he : e.span ∈ rs)
    (hfilled : ∀ r ∈ rs, r.Filled) (hin : ∀ g ∈ es, e.span.contains g.span ∧ g.span ≠ e.span) :
    Agree source rs (es ++ [e]) [e] where
  left g hg := by
    rcases mem_append.1 hg with hg | hg
    · exact hes g hg
    · exact mem_singleton.1 hg ▸ he
  right g hg := mem_singleton.1 hg ▸ he
  same span A B hspan hA hB := by
    have habsorb : EditSet.render ⟨A ++ es ++ e :: B⟩ source span =
        EditSet.render ⟨A ++ e :: B⟩ source span := by
      apply EditSet.render_absorb_all (mem_cons_self ..)
        (fun g hg => ⟨(hin g hg).1, (hin g hg).2.symm⟩) (hspan _ he)
      · intro h hh
        simp only [mem_append, mem_cons] at hh
        rcases hh with (hh | hh) | rfl | hh
        · exact (hA h hh).1
        · exact hfilled _ (hes h hh)
        · exact hfilled _ he
        · exact (hB h hh).1
      · intro h hh
        simp only [mem_append, mem_cons] at hh
        rcases hh with hh | rfl | hh
        · exact .inl ((hA h hh).2 _ he)
        · exact .inr (.inl (contains_self _))
        · exact .inl ((hB h hh).2 _ he)
    simpa using habsorb

theorem again {e g} (h : Agree source rs es ps) (he : e ∈ es) (hg : g.span = e.span)
    (hfilled : ∀ r ∈ rs, r.Filled) (hin : ∀ f ∈ es, e.span.contains f.span) :
    Agree source rs (es ++ [g]) ps where
  left f hf := by
    rcases mem_append.1 hf with hf | hf
    · exact h.left f hf
    · rw [mem_singleton.1 hf, hg]
      exact h.left e he
  right := h.right
  same span A B hspan hA hB := by
    have hers := h.left e he
    rw [← h.same span A B hspan hA hB]
    have habsorb : EditSet.render ⟨(A ++ es) ++ g :: B⟩ source span =
        EditSet.render ⟨(A ++ es) ++ B⟩ source span := by
      apply EditSet.render_absorb (.inl (mem_append_right A he)) (hg ▸ contains_self _)
        (hspan _ hers) (hg ▸ hfilled _ hers)
      · intro f hf
        rcases mem_append.1 ((append_assoc ..) ▸ hf) with hf | hf
        · exact (hA f hf).1
        · rcases mem_append.1 hf with hf | hf
          · exact hfilled _ (h.left f hf)
          · exact (hB f hf).1
      · intro f hf
        rcases mem_append.1 ((append_assoc ..) ▸ hf) with hf | hf
        · exact .inl ((hA f hf).2 _ hers)
        · rcases mem_append.1 hf with hf | hf
          · exact .inr (.inl (hin f hf))
          · exact .inl ((hB f hf).2 _ hers)
    simpa using habsorb

end Agree

end

end Sveltify
