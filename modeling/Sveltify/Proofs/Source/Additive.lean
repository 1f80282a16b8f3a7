import Sveltify.Proofs.Source.Splice

/-! Rendering is additive over clean cuts: where no replacement of a range crosses an offset, what
is rendered before the offset and what is rendered after it are put together. Replacements may
overlap in any way, since the ones that are skipped before the cut leave no trace behind it. -/

namespace Sveltify.EditSet

open List

variable {source : Source} {X Y : List Edit} {e : Edit} {a b c : Nat}

/-! The order of replacements on both sides of a cut. -/

theorem insert_append_left (h : ∀ y ∈ Y, precedes e y) : insert e (X ++ Y) = insert e X ++ Y := by
  induction X with
  | nil =>
    cases Y with
    | nil => rfl
    | cons y => simp [insert, h y]
  | cons x X ih =>
    simp only [cons_append, insert, ih]
    split <;> rfl

theorem insert_append_right (h : ∀ x ∈ X, precedes e x = false) :
    insert e (X ++ Y) = X ++ insert e Y := by
  induction X with
  | nil => rfl
  | cons x X ih =>
    obtain ⟨hx, hX⟩ := forall_mem_cons.1 h
    simp [insert, hx, ih hX]

/-- Replacements that end before the cut come before those that start behind it. -/
theorem ordered_cut {es} (hfilled : ∀ e ∈ es, e.span.Filled)
    (hcut : ∀ e ∈ es, e.span.stop ≤ b ∨ b ≤ e.span.start) :
    ordered es = ordered (es.filter (·.span.stop ≤ b)) ++ ordered (es.filter (b ≤ ·.span.start)) := by
  induction es with
  | nil => rfl
  | cons e _ ih =>
    obtain ⟨he, hfilled⟩ := forall_mem_cons.1 hfilled
    obtain ⟨hside, hcut⟩ := forall_mem_cons.1 hcut
    have hlt : e.span.start < e.span.stop := he
    rw [ordered, ih hfilled hcut]
    rcases hside with hbefore | hbehind
    · rw [filter_cons_of_pos (by simpa using hbefore),
        filter_cons_of_neg (by simp; omega)]
      refine insert_append_left fun f hf => precedes_iff.2 (.inl ?_)
      obtain ⟨-, hf⟩ := mem_filter.1 (mem_ordered.1 hf)
      simp only [decide_eq_true_eq] at hf
      omega
    · rw [filter_cons_of_neg (by simp; omega),
        filter_cons_of_pos (by simpa using hbehind)]
      refine insert_append_right fun f hf => ?_
      obtain ⟨hmem, hf⟩ := mem_filter.1 (mem_ordered.1 hf)
      have hflt : f.span.start < f.span.stop := hfilled f hmem
      simp only [decide_eq_true_eq] at hf
      rw [Bool.eq_false_iff, Ne, precedes_iff]
      omega

/-! Applying them from one side of the cut to the other. -/

section

variable (hb : source.isBoundary b) (hc : source.isBoundary c)
  (hY : ∀ f ∈ Y, b ≤ f.span.start ∧ source.isBoundary f.span.start)
include hb hc hY

theorem apply_behind_cut {cursor} (hcursor : source.isBoundary cursor) (hle : cursor ≤ b)
    (hbc : b ≤ c) :
    apply source c cursor Y = source.slice ⟨cursor, b⟩ ++ apply source c b Y := by
  cases Y with
  | nil => exact (Source.slice_append hcursor hb hc hle hbc).symm
  | cons f =>
    obtain ⟨hstart, hbound⟩ := hY f mem_cons_self
    rw [apply, apply, if_neg (by omega), if_neg (by omega), ← append_assoc,
      ← append_assoc, Source.slice_append hcursor hb hbound hle hstart]

/-- The cursor that is carried over the cut never lies behind it. -/
theorem apply_over_cut {cursor} (hcursor : source.isBoundary cursor) (hle : cursor ≤ b)
    (hbc : b ≤ c) (hX : ∀ f ∈ X, f.span.stop ≤ b ∧ source.isBoundary f.span.stop) :
    apply source c cursor (X ++ Y) = apply source b cursor X ++ apply source c b Y := by
  induction X generalizing cursor with
  | nil => exact apply_behind_cut hb hc hY hcursor hle hbc
  | cons f X ih =>
    obtain ⟨⟨hstop, hbound⟩, hX⟩ := forall_mem_cons.1 hX
    rw [cons_append, apply, apply]
    split
    · exact ih hcursor hle hX
    · rw [ih hbound hstop hX, append_assoc (_ ++ _)]

end

/-- Where no replacement inside of a range crosses an offset of it, the text of the range is that
before the offset and that behind it, whatever replacements overlap on either side. -/
theorem render_additive {es : List Edit} (hfilled : ∀ e ∈ es, e.span.Filled)
    (hes : ∀ e ∈ es, source.isBoundary e.span.start ∧ source.isBoundary e.span.stop)
    (ha : source.isBoundary a) (hb : source.isBoundary b) (hc : source.isBoundary c)
    (hab : a ≤ b) (hbc : b ≤ c)
    (hcut : ∀ e ∈ es, Span.contains ⟨a, c⟩ e.span → ¬ (e.span.start < b ∧ b < e.span.stop)) :
    render ⟨es⟩ source ⟨a, c⟩ = render ⟨es⟩ source ⟨a, b⟩ ++ render ⟨es⟩ source ⟨b, c⟩ := by
  let inner := es.filter fun e => Span.contains ⟨a, c⟩ e.span
  have hinner : ∀ e ∈ inner, e ∈ es ∧ a ≤ e.span.start ∧ e.span.stop ≤ c := by
    intro e he
    obtain ⟨hmem, hin⟩ := List.mem_filter.1 he
    exact ⟨hmem, Span.contains_iff.1 hin⟩
  have hside : ∀ e ∈ inner, e.span.stop ≤ b ∨ b ≤ e.span.start := by
    intro e he
    have := hcut e (hinner e he).1 (List.mem_filter.1 he).2
    omega
  have hpart (side : Edit → Bool) (span : Span)
      (h : ∀ e : Edit, side e ∧ a ≤ e.span.start ∧ e.span.stop ≤ c ↔
        span.start ≤ e.span.start ∧ e.span.stop ≤ span.stop) :
      inner.filter side = es.filter fun e => span.contains e.span := by
    rw [List.filter_filter]
    refine List.filter_congr fun e _ => ?_
    rw [Bool.eq_iff_iff, Bool.and_eq_true, Span.contains_iff, Span.contains_iff]
    exact h e
  have hbefore := hpart (·.span.stop ≤ b) ⟨a, b⟩ fun e => by
    simp only [decide_eq_true_eq]
    omega
  have hbehind := hpart (b ≤ ·.span.start) ⟨b, c⟩ fun e => by
    simp only [decide_eq_true_eq]
    omega
  have hordered := ordered_cut (fun e he => hfilled e (hinner e he).1) hside
  rw [hbefore, hbehind] at hordered
  unfold render
  rw [hordered]
  refine apply_over_cut hb hc (fun f hf => ?_) ha hab hbc fun f hf => ?_
  · obtain ⟨hmem, hin⟩ := List.mem_filter.1 (mem_ordered.1 hf)
    exact ⟨(Span.contains_iff.1 hin).1, (hes f hmem).1⟩
  · obtain ⟨hmem, hin⟩ := List.mem_filter.1 (mem_ordered.1 hf)
    exact ⟨(Span.contains_iff.1 hin).2, (hes f hmem).2⟩

/-- Replacements that overlap on both sides of the cut, the first of each pair applied. -/
theorem render_additive_overlapping :
    let source := Source.ofString "aé(b)cd"
    let es : List Edit := [⟨⟨1, 4⟩, ['y']⟩, ⟨⟨0, 3⟩, ['x']⟩, ⟨⟨5, 7⟩, ['z']⟩, ⟨⟨6, 8⟩, ['w']⟩]
    (∀ e ∈ es, e.span.Filled) ∧
      (∀ e ∈ es, source.isBoundary e.span.start ∧ source.isBoundary e.span.stop) ∧
      (∀ e ∈ es, Span.contains ⟨0, 8⟩ e.span → ¬ (e.span.start < 4 ∧ 4 < e.span.stop)) ∧
      render ⟨es⟩ source ⟨0, 8⟩ = "x(bzd".toList ∧
      render ⟨es⟩ source ⟨0, 8⟩ = render ⟨es⟩ source ⟨0, 4⟩ ++ render ⟨es⟩ source ⟨4, 8⟩ := by
  intro source es
  have hfilled : ∀ e ∈ es, e.span.Filled := by decide
  have hes : ∀ e ∈ es, source.isBoundary e.span.start ∧ source.isBoundary e.span.stop := by
    decide +kernel
  have hcut : ∀ e ∈ es, Span.contains ⟨0, 8⟩ e.span → ¬ (e.span.start < 4 ∧ 4 < e.span.stop) := by
    decide
  exact ⟨hfilled, hes, hcut, by decide +kernel, render_additive hfilled hes (by decide +kernel)
    (by decide +kernel) (by decide +kernel) (by decide) (by decide) hcut⟩

end Sveltify.EditSet
